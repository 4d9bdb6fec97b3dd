import PeerBook.Text.Numeral

/-!
# PeerBook.PeerId

The local handle of a peer: a 64-bit number that is given out once. When a peer
is absorbed by another its number goes on standing for the survivor, through
the redirects of the directory.

Handles are ordered by their numbers, and the next handle is the successor,
which stays at the greatest number once that is reached. In keys of the storage
a handle is written in decimal: `PeerId.parse?` reads it back
(`PeerId.parse?_toString`), and two handles never share a key
(`PeerId.toString_inj`).
-/

namespace PeerBook

/-- The local handle of a peer. -/
structure PeerId where
  value : UInt64
  deriving DecidableEq, Repr

namespace PeerId

instance : Inhabited PeerId := ⟨⟨0⟩⟩

instance : ToString PeerId := ⟨fun id => toString id.value⟩

/-- Handles are ordered by their numbers. -/
instance : Ord PeerId := ⟨fun a b => compare a.value b.value⟩

/-- The handle after this one. -/
def next (id : PeerId) : PeerId := ⟨id.value + 1⟩

/-- The greater of two handles. -/
def max (a b : PeerId) : PeerId := if compare a b = .lt then b else a

/-- Reads a handle from a numeral. -/
def parse? (s : String) : Option PeerId := (Text.readUInt64 s).toOption.map PeerId.mk

/-- What was written is read back, so the handle in a key of the storage is not lost. -/
@[simp] theorem parse?_toString (id : PeerId) : parse? (toString id) = some id := by
  rw [parse?, show toString id = toString id.value from rfl, Text.readUInt64_toString]
  rfl

/-- Different handles are written differently, so they never share a key of the storage. -/
theorem toString_inj {a b : PeerId} (h : toString a = toString b) : a = b := by
  simpa using congrArg parse? h

/-! ## The order -/

theorem compare_def (a b : PeerId) : compare a b = compare a.value b.value := rfl

instance : Std.TransOrd PeerId where
  eq_swap {a b} := Std.OrientedOrd.eq_swap (a := a.value) (b := b.value)
  isLE_trans {a b c} := Std.TransOrd.isLE_trans (a := a.value) (b := b.value) (c := c.value)

instance : Std.LawfulEqOrd PeerId where
  compare_self {a} := by rw [compare_def]; simp
  eq_of_compare {a b} h := by
    cases a; cases b
    simpa [compare_def] using h

end PeerId

end PeerBook
