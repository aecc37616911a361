import PacketQuery.Order
import PacketQuery.Text.Ascii
import PacketQuery.Value.Basic
/-!
Rows that show the same text in every column count as repeats; the first of them stays.
-/

namespace PacketQuery.Rows

/-- The character between the texts of a row's values. -/
def separator : String := "\x1f"

/-- The texts of a row's values, separated. -/
def fingerprint (row : List Value) : String :=
  Text.joined separator (row.map Value.render)

/-- The rows whose fingerprint is neither among `seen` nor that of an earlier row, and the
fingerprints seen with theirs. -/
def keepFirst (seen : List String) : List (List Value) → List (List Value) × List String
  | [] => ([], seen)
  | row :: rows =>
    let text := fingerprint row
    if seen.contains text then keepFirst seen rows
    else
      let (kept, all) := keepFirst (text :: seen) rows
      (row :: kept, all)

/-- The texts in ascending order. -/
def sortTexts (texts : List String) : List String :=
  Order.sort Order.text texts

end PacketQuery.Rows
