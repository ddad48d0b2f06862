/-
# The option registry

An option is known by its number.  The low bits of the number say how a node treats an
option it does not recognise; the registry says, for the numbers it lists, what values the
option takes, whether it may occur more than once and which value goes without saying.
-/

namespace Coap

/-- The number of an option. -/
structure OptionNumber where
  value : UInt16
deriving DecidableEq

namespace OptionNumber

/-- The number as a natural number. -/
def toNat (n : OptionNumber) : Nat := n.value.toNat

/-- The option with a given number; numbers are taken modulo 65536. -/
def ofNat (n : Nat) : OptionNumber := ⟨UInt16.ofNat n⟩

theorem toNat_lt (n : OptionNumber) : n.toNat < 65536 := n.value.toNat_lt

theorem toNat_inj {m n : OptionNumber} : m.toNat = n.toNat ↔ m = n := by
  cases m
  cases n
  simp [toNat, UInt16.toNat_inj]

@[simp] theorem ofNat_toNat (n : OptionNumber) : ofNat n.toNat = n := by
  cases n
  simp [ofNat, toNat]

theorem toNat_ofNat {n : Nat} (h : n < 65536) : (ofNat n).toNat = n := by
  simp only [ofNat, toNat, UInt16.toNat_ofNat']
  omega

/-- An odd option has to be understood by whoever receives it. -/
def isCritical (n : OptionNumber) : Bool := n.toNat % 2 == 1

/-- An option with bit 1 set must not be forwarded by a node that does not know it. -/
def isUnsafeToForward (n : OptionNumber) : Bool := n.toNat / 2 % 2 == 1

/-- An option whose bits 1 to 4 are 0, 1, 1, 1 is no part of a cache key. -/
def isNoCacheKey (n : OptionNumber) : Bool := n.toNat / 2 % 16 == 14

/-! ## Registered numbers -/

def ifMatch : OptionNumber := ⟨1⟩
def uriHost : OptionNumber := ⟨3⟩
def etag : OptionNumber := ⟨4⟩
def ifNoneMatch : OptionNumber := ⟨5⟩
def observe : OptionNumber := ⟨6⟩
def uriPort : OptionNumber := ⟨7⟩
def locationPath : OptionNumber := ⟨8⟩
def uriPath : OptionNumber := ⟨11⟩
def contentFormat : OptionNumber := ⟨12⟩
def maxAge : OptionNumber := ⟨14⟩
def uriQuery : OptionNumber := ⟨15⟩
def accept : OptionNumber := ⟨17⟩
def locationQuery : OptionNumber := ⟨20⟩
def block2 : OptionNumber := ⟨23⟩
def block1 : OptionNumber := ⟨27⟩
def size2 : OptionNumber := ⟨28⟩
def proxyUri : OptionNumber := ⟨35⟩
def proxyScheme : OptionNumber := ⟨39⟩
def size1 : OptionNumber := ⟨60⟩

end OptionNumber

/-! ## Definitions -/

/-- The kind of value an option takes. -/
inductive OptionFormat
  | empty
  | octets
  | text
  | unsigned
deriving DecidableEq

/-- The name of a format in diagnostics. -/
def OptionFormat.name : OptionFormat → String
  | empty => "Empty"
  | octets => "Opaque"
  | text => "String"
  | unsigned => "UInt"

/-- What the registry says about one option: its number and name, the format of its values,
the permitted length of an encoded value, whether it may occur more than once, and the
value that holds when it is left out and is therefore never sent. -/
structure OptionDefinition where
  number : OptionNumber
  name : String
  format : OptionFormat
  minLength : Nat
  maxLength : Nat
  repeatable : Bool := false
  implied? : Option UInt32 := none
deriving DecidableEq

/-- The longest time a response may be reused, in seconds, when it does not say. -/
def impliedMaxAge : UInt32 := 60

/-- The port of a request that does not name one. -/
def impliedUriPort : UInt32 := 5683

/-- The registered options in ascending order of their numbers. -/
def optionRegistry : List OptionDefinition :=
  [{ number := .ifMatch, name := "IfMatch", format := .octets,
     minLength := 0, maxLength := 8, repeatable := true },
   { number := .uriHost, name := "UriHost", format := .text,
     minLength := 1, maxLength := 255 },
   { number := .etag, name := "ETag", format := .octets,
     minLength := 1, maxLength := 8, repeatable := true },
   { number := .ifNoneMatch, name := "IfNoneMatch", format := .empty,
     minLength := 0, maxLength := 0 },
   { number := .observe, name := "Observe", format := .unsigned,
     minLength := 0, maxLength := 3 },
   { number := .uriPort, name := "UriPort", format := .unsigned,
     minLength := 0, maxLength := 2, implied? := some impliedUriPort },
   { number := .locationPath, name := "LocationPath", format := .text,
     minLength := 0, maxLength := 255, repeatable := true },
   { number := .uriPath, name := "UriPath", format := .text,
     minLength := 0, maxLength := 255, repeatable := true },
   { number := .contentFormat, name := "ContentFormat", format := .unsigned,
     minLength := 0, maxLength := 2 },
   { number := .maxAge, name := "MaxAge", format := .unsigned,
     minLength := 0, maxLength := 4, implied? := some impliedMaxAge },
   { number := .uriQuery, name := "UriQuery", format := .text,
     minLength := 0, maxLength := 255, repeatable := true },
   { number := .accept, name := "Accept", format := .unsigned,
     minLength := 0, maxLength := 2 },
   { number := .locationQuery, name := "LocationQuery", format := .text,
     minLength := 0, maxLength := 255, repeatable := true },
   { number := .block2, name := "Block2", format := .unsigned,
     minLength := 0, maxLength := 3 },
   { number := .block1, name := "Block1", format := .unsigned,
     minLength := 0, maxLength := 3 },
   { number := .size2, name := "Size2", format := .unsigned,
     minLength := 0, maxLength := 4 },
   { number := .proxyUri, name := "ProxyUri", format := .text,
     minLength := 1, maxLength := 1034 },
   { number := .proxyScheme, name := "ProxyScheme", format := .text,
     minLength := 1, maxLength := 255 },
   { number := .size1, name := "Size1", format := .unsigned,
     minLength := 0, maxLength := 4 }]

namespace OptionNumber

/-- The registry's entry for an option, if there is one. -/
def definition? (n : OptionNumber) : Option OptionDefinition :=
  optionRegistry.find? (·.number == n)

/-- Whether an option may occur more than once; an unregistered option may not. -/
def isRepeatable (n : OptionNumber) : Bool :=
  match n.definition? with
  | some d => d.repeatable
  | none => false

/-- The written form of an option: its name and number. -/
def text (n : OptionNumber) : String :=
  let name := match n.definition? with
    | some d => d.name
    | none => "Unknown"
  name ++ "(" ++ toString n.toNat ++ ")"

theorem mem_of_definition? {n : OptionNumber} {d : OptionDefinition}
    (h : n.definition? = some d) : d ∈ optionRegistry ∧ d.number = n := by
  refine ⟨List.mem_of_find?_eq_some h, ?_⟩
  simpa using List.find?_some h

end OptionNumber

end Coap
