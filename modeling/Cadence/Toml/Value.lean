/-!
# TOML values

What a TOML document holds. A date is checked when it is read, but nothing here needs to know which
one it is.
-/

namespace Cadence.Toml

/-- A TOML value. -/
inductive Value where
  /-- A text. -/
  | text (value : String)
  /-- A whole number. -/
  | integer (value : Int)
  /-- A binary64 number. -/
  | float (value : Float)
  /-- A truth value. -/
  | bool (value : Bool)
  /-- A date, a time of day, or both. -/
  | date
  /-- A list. -/
  | array (items : List Value)
  /-- Named values. -/
  | table (entries : List (String × Value))
deriving Repr, Inhabited

end Cadence.Toml
