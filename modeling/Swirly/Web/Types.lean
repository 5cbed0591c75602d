import Swirly.Fin.Exception

/-!
# The statuses of HTTP

`web/Types.hpp` and `web/Types.cpp`: the statuses that a response has, the reasons that go with them, and the status that
answers an exception.
-/

namespace Swirly

inductive HttpStatus where
  | ok
  | noContent
  | badRequest
  | unauthorized
  | forbidden
  | notFound
  | methodNotAllowed
  | internalServerError
  | serviceUnavailable
  /-- A number that the code does not name. -/
  | other (code : Int)
  deriving DecidableEq

namespace HttpStatus

def code : HttpStatus → Int
  | ok => 200
  | noContent => 204
  | badRequest => 400
  | unauthorized => 401
  | forbidden => 403
  | notFound => 404
  | methodNotAllowed => 405
  | internalServerError => 500
  | serviceUnavailable => 503
  | other code => code

/-- `http_reason`, for the statuses that the code names. -/
def reason : HttpStatus → Bytes
  | ok => bytes "OK"
  | noContent => bytes "No Content"
  | badRequest => bytes "Bad Request"
  | unauthorized => bytes "Unauthorized"
  | forbidden => bytes "Forbidden"
  | notFound => bytes "Not Found"
  | methodNotAllowed => bytes "Method Not Allowed"
  | internalServerError => bytes "Internal Server Error"
  | serviceUnavailable => bytes "Service Unavailable"
  | other _ => []

/-- `http_status`.  An exception of another category is an internal error. -/
def ofKind : ErrorKind → HttpStatus
  | .badRequest | .alreadyExists | .refAlreadyExists | .invalid | .invalidLots | .tooLate => badRequest
  | .unauthorized => unauthorized
  | .forbidden => forbidden
  | .notFound | .marketNotFound | .orderNotFound => notFound
  | .methodNotAllowed => methodNotAllowed
  | .marketClosed => serviceUnavailable
  | .runtimeError => internalServerError

end HttpStatus

end Swirly
