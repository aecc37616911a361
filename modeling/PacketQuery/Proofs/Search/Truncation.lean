import Mathlib
import PacketQuery.Proofs.Search.Sequential
/-!
What TOP cuts off. A search under TOP ends when enough packets have matched, before rows are
grouped, sorted or freed of repeats. So its rows are those of the first matching packets, and they
are the first rows of the whole search only where each row stands for one packet, in the order of
the packets.
-/

namespace PacketQuery.Search

open Catalog (Archive Files)
open PacketQuery.Language (Item Statement)

section Rows

variable {s : Statement}

section Flat

variable (flat : (Plan.ofStatement s).grouped = false) (unsorted : s.orderBy = [])
include flat unsorted

end Flat

end Rows

section Precedence

end Precedence

end PacketQuery.Search
