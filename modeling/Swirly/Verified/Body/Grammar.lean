import Swirly.Web.RestBody

/-!
# The grammar of bodies

What the grammar of `web/RestBody.rl` derives, read the other way round: a document is a list of members, each with its
white space and with the letters of its key as they are typed, and `text` is what it is rendered to.
-/

namespace Swirly

open RestBody

/-- White space of any length. -/
structure Blank where
  text : Bytes
  spaces : ∀ c ∈ text, isSpace c

def Blank.nothing : Blank := { text := [], spaces := List.forall_mem_nil _ }

/-- A character of a string.  A backslash takes any byte as it is. -/
inductive Letter where
  | plain (c : UInt8) (ordinary : c ≠ quote ∧ c ≠ backslash)
  | escaped (c : UInt8)

namespace Letter

def text : Letter → Bytes
  | plain c _ => [c]
  | escaped c => [backslash, c]

def decode : Letter → UInt8
  | plain c _ => c
  | escaped c => c

end Letter

/-- The sign that stands before a number. -/
inductive Sign where
  | none
  | plus
  | minus
  deriving DecidableEq

namespace Sign

def text : Sign → Bytes
  | none => []
  | plus => [43]
  | minus => [45]

def unit : Sign → Int
  | none | plus => 1
  | minus => -1

end Sign

/-- A decimal literal of any length. -/
structure Literal where
  sign : Sign
  digits : Bytes
  nonempty : digits ≠ []
  decimal : ∀ c ∈ digits, RestBody.isDigit c

namespace Literal

def text (lit : Literal) : Bytes := lit.sign.text ++ lit.digits

def magnitude (lit : Literal) : Nat := lit.digits.foldl (fun n c => n * 10 + (c.toNat - 48)) 0

def value (lit : Literal) : Int := lit.sign.unit * lit.magnitude

end Literal

/-- The value of a member, as it is written. -/
inductive JsonValue where
  | null
  | str (letters : List Letter)
  | num (lit : Literal)
  | word (typed : Bytes)

namespace JsonValue

def text : JsonValue → Bytes
  | null => bytes "null"
  | str letters => quote :: letters.flatMap Letter.text ++ [quote]
  | num lit => lit.text
  | word typed => quote :: typed ++ [quote]

/-- The grammar has the value for the field. -/
def Suits (f : Field) : JsonValue → Prop
  | null => f.nullable
  | str _ => ∃ max, f.value = .str max
  | num _ => f.value = .num
  | word typed => ∃ words, f.value = .words words ∧ typed.map toLower ∈ words

end JsonValue

/-- A member with the white space around it. -/
structure Member where
  field : Field
  key : Bytes
  typed : key.map toLower = field.name
  written : JsonValue
  suits : written.Suits field
  before : Blank
  beforeColon : Blank
  afterColon : Blank
  after : Blank

namespace Member

/-- The member up to its value, and with the white space after it. -/
def pair (m : Member) : Bytes :=
  m.before.text ++ quote :: m.key ++ quote :: m.beforeColon.text ++ colon :: m.afterColon.text ++ m.written.text

def text (m : Member) : Bytes := m.pair ++ m.after.text

end Member

/-- The members between the braces.  White space may stand between braces without members, too. -/
inductive Object where
  | empty (inside : Blank)
  | members (first : Member) (others : List Member)

namespace Object

def all : Object → List Member
  | empty _ => []
  | members first others => first :: others

def text : Object → Bytes
  | empty inside => inside.text
  | members first others => first.text ++ others.flatMap fun m => comma :: m.text

end Object

structure Document where
  before : Blank
  object : Object
  after : Blank

namespace Document

def all (d : Document) : List Member := d.object.all

/-- The text up to the closing brace. -/
def front (d : Document) : Bytes := d.before.text ++ openBrace :: d.object.text

def text (d : Document) : Bytes := d.front ++ closeBrace :: d.after.text

end Document

end Swirly
