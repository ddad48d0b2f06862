/-
# Paths

A path is written with slashes between its segments.  Empty segments mean nothing, so
`/a//b/`, `a/b` and `a//b` are three ways to write one path: its list of segments, or
equally its normal form with single slashes.
-/

namespace Coap.Path

/-- Cuts a text at every slash. -/
def splitSlash : List Char → List (List Char)
  | [] => [[]]
  | c :: rest =>
    if c = '/' then [] :: splitSlash rest
    else
      match splitSlash rest with
      | [] => [[c]]
      | first :: more => (c :: first) :: more

/-- The segments of a path, without the empty ones. -/
def segments (path : String) : List String :=
  ((splitSlash path.toList).filter (!·.isEmpty)).map String.ofList

/-- Writes segments with slashes between them. -/
def join (segments : List String) : String := String.intercalate "/" segments

/-- The normal form of a path: its segments with single slashes between them. -/
def normalize (path : String) : String := join (segments path)

end Coap.Path
