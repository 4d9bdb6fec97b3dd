import PeerBook.PeerId
import PeerBook.Table

/-!
# PeerBook.Redirects

Which handles were absorbed by a merge, and into which. A handle is followed
until one that was never absorbed; since a chain of redirects cannot be longer
than the table, that many steps and one more are enough, and a table with a
cycle does no harm: following stops when the steps are used up.

Where a chain has an end, `Redirects.follow` finds it, and following again
leads no further; this is proved in `PeerBook.Proofs.Redirects`, where chains
are a relation of their own.
-/

namespace PeerBook

/-- The surviving handle of each absorbed one. -/
abbrev Redirects := Table PeerId PeerId

namespace Redirects

/-- Follows redirects for at most `n` steps. -/
def followFor (r : Redirects) : Nat → PeerId → PeerId
  | 0, id => id
  | n + 1, id =>
    match r.get? id with
    | some next => followFor r n next
    | none => id

/-- The handle that a handle stands for now. -/
def follow (r : Redirects) (id : PeerId) : PeerId := r.followFor (r.size + 1) id

/-- A handle that was never absorbed stands for itself. -/
theorem follow_of_get?_eq_none {r : Redirects} {id : PeerId} (h : r.get? id = none) :
    r.follow id = id := by
  simp [follow, followFor, h]

/-- Without redirects every handle stands for itself, as in the directory of a new account. -/
@[simp] theorem follow_empty (id : PeerId) : follow ∅ id = id := follow_of_get?_eq_none rfl

end Redirects

end PeerBook
