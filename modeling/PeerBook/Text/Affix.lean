/-!
# PeerBook.Text.Affix

Beginnings and ends of texts, as lists of characters see them: whether a text
begins with another, what follows a known beginning or precedes a known end.

Keys of the storage are made of a prefix and what tells them apart, and the
names of files of a key and an extension. The lemmas here take such texts apart
again: `Text.afterPrefix?_append` and `Text.beforeSuffix?_append` one way, and
`Text.eq_append_of_afterPrefix?` and `Text.eq_append_of_beforeSuffix?` back.
-/

namespace PeerBook.Text

/-- Whether `s` begins with `p`. -/
def hasPrefix (p s : String) : Bool :=
  p.toList.isPrefixOf s.toList

/-- What follows `p` in a text that begins with it. -/
def afterPrefix? (p s : String) : Option String :=
  if hasPrefix p s then some (String.ofList (s.toList.drop p.toList.length)) else none

/-- What precedes `p` in a text that ends with it. -/
def beforeSuffix? (p s : String) : Option String :=
  if p.toList.isSuffixOf s.toList then
    some (String.ofList (s.toList.take (s.toList.length - p.toList.length)))
  else
    none

/-- What follows the last `c` of a text, the whole text if there is none. -/
def afterLast (c : Char) (s : String) : String :=
  String.ofList (s.toList.reverse.takeWhile (· != c)).reverse

/-! ## What the operations say of an appended text -/

/-- The test looks at the characters: the list of the one is a prefix of that of the other. -/
theorem hasPrefix_iff {p s : String} : hasPrefix p s = true ↔ p.toList <+: s.toList := by
  simp [hasPrefix]

/-- A text begins with what was put in front of it. -/
@[simp] theorem hasPrefix_append (p s : String) : hasPrefix p (p ++ s) = true := by
  simp [hasPrefix_iff]

/-- What follows a prefix is what it was put in front of. -/
@[simp] theorem afterPrefix?_append (p s : String) : afterPrefix? p (p ++ s) = some s := by
  simp [afterPrefix?]

/-- What precedes a suffix is what it was put behind. -/
@[simp] theorem beforeSuffix?_append (s p : String) : beforeSuffix? p (s ++ p) = some s := by
  simp [beforeSuffix?]

/-- A text with a known prefix is that prefix and what follows it. -/
theorem eq_append_of_afterPrefix? {p s r : String} (h : afterPrefix? p s = some r) :
    s = p ++ r := by
  unfold afterPrefix? at h
  split at h
  · rename_i hp
    obtain ⟨t, ht⟩ := hasPrefix_iff.mp hp
    have hr : r = String.ofList t := by simpa [← ht, eq_comm] using h
    rw [← String.toList_inj, hr]
    simp [ht]
  · simp at h

/-- A text with a known suffix is what precedes it and that suffix. -/
theorem eq_append_of_beforeSuffix? {p s r : String} (h : beforeSuffix? p s = some r) :
    s = r ++ p := by
  unfold beforeSuffix? at h
  split at h
  · rename_i hp
    obtain ⟨t, ht⟩ := List.isSuffixOf_iff_suffix.mp hp
    have hr : r = String.ofList t := by simpa [← ht, eq_comm] using h
    rw [← String.toList_inj, hr]
    simp [ht]
  · simp at h

end PeerBook.Text
