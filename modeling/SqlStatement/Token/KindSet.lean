import SqlStatement.Token.Kind

namespace SqlStatement.Token

namespace Kind

/-- The word of a set in which a kind has its bit. -/
def word (k : Kind) : Fin 4 :=
  ⟨k.index / 64, Nat.div_lt_of_lt_mul (Nat.lt_trans k.index_lt (by decide))⟩

/-- The bit of a kind, alone in its word. -/
def mask (k : Kind) : BitVec 64 := 1#64 <<< (k.index % 64)

/-- The mask of a kind has a single bit, at the place of the kind in its word. -/
theorem getLsbD_mask (k : Kind) (i : Nat) : k.mask.getLsbD i = decide (k.index % 64 = i) := by
  have hbit : k.index % 64 < 64 := Nat.mod_lt _ (by decide)
  simp [mask, ← BitVec.twoPow_eq, hbit]

/-- A word has a bit in common with the mask of a kind exactly if it has the bit of
    the kind. So the test by a mask is a test of one bit. -/
theorem and_mask_bne (w : BitVec 64) (k : Kind) :
    (w &&& k.mask != 0#64) = w.getLsbD (k.index % 64) := by
  have hbit : k.index % 64 < 64 := Nat.mod_lt _ (by decide)
  rw [mask, ← BitVec.twoPow_eq, BitVec.and_twoPow]
  split
  · next hset =>
    rw [hset, bne_iff_ne]
    intro hzero
    have hlost := congrArg (BitVec.getLsbD · (k.index % 64)) hzero
    simp [hbit] at hlost
  · next hset => simpa using hset

end Kind

/-- A set of token kinds, one bit for each number in four words. Membership is the
    meaning of a set: `contains_ofList` and `contains_union` say what the two ways
    of building one do to it. -/
structure KindSet where
  words : Vector (BitVec 64) 4
  deriving DecidableEq, Repr

namespace KindSet

/-- No kinds. -/
def empty : KindSet := ⟨.replicate 4 0#64⟩

def insert (s : KindSet) (k : Kind) : KindSet :=
  ⟨s.words.set k.word (s.words[k.word] ||| k.mask)⟩

def ofList (kinds : List Kind) : KindSet := kinds.foldl insert empty

def contains (s : KindSet) (k : Kind) : Bool := s.words[k.word] &&& k.mask != 0#64

instance : Membership Kind KindSet := ⟨fun s k => s.contains k = true⟩

/-- The kinds of both sets, word by word. -/
def union (s t : KindSet) : KindSet := ⟨s.words.zipWith (· ||| ·) t.words⟩

def isEmpty (s : KindSet) : Bool := s.words.toList.all (· == 0#64)

/-- How many bits are set. -/
def size (s : KindSet) : Nat := s.words.toList.foldl (fun n w => n + w.cpop.toNat) 0

/-- The members in the order of their numbers. -/
def toList (s : KindSet) : List Kind := Kind.all.filter s.contains

/-- The names of the members between braces. -/
def describe (s : KindSet) : String :=
  "\x7b" ++ ", ".intercalate (s.toList.map Kind.name) ++ "\x7d"

/-- The bit of a number. -/
def bit (s : KindSet) (i : Nat) : Bool := (s.words[i / 64]?.getD 0#64).getLsbD (i % 64)

/-- Only the set whose words are all zero counts as empty. -/
theorem isEmpty_iff (s : KindSet) : s.isEmpty = true ↔ s = empty := by
  obtain ⟨words⟩ := s
  rw [isEmpty, List.all_eq_true, empty, mk.injEq, Vector.eq_replicate_iff]
  simp only [Vector.mem_toList_iff, beq_iff_eq]

/-- A set contains a kind if the bit of its number is set. The results about sets
    are stated by bits, so the division into words stays in this module. -/
theorem contains_eq_bit (s : KindSet) (k : Kind) : s.contains k = s.bit k.index := by
  have hword : k.index / 64 < 4 := k.word.isLt
  rw [contains, k.and_mask_bne, bit, Vector.getElem?_eq_getElem hword]
  rfl

theorem bit_empty (i : Nat) : empty.bit i = false := by
  simp only [bit, empty, Vector.getElem?_replicate]
  split <;> simp

/-- Insertion sets the bit of one number, in whatever word it is, and leaves the
    others. -/
theorem bit_insert (s : KindSet) (k : Kind) (i : Nat) :
    (s.insert k).bit i = (s.bit i || decide (i = k.index)) := by
  by_cases hword : k.index / 64 = i / 64
  · have hbit : k.index % 64 = i % 64 ↔ i = k.index := by omega
    have hlt : i / 64 < 4 := hword ▸ k.word.isLt
    simp [bit, insert, Kind.word, hword, hlt, k.getLsbD_mask, hbit]
  · have hne : i ≠ k.index := fun h => hword (by rw [h])
    simp [bit, insert, Kind.word, hword, hne]

/-- A number is in a union if it is in one of the two sets, in whatever word its bit
    is. -/
theorem bit_union (s t : KindSet) (i : Nat) : (s.union t).bit i = (s.bit i || t.bit i) := by
  by_cases hlt : i / 64 < 4
  · simp [bit, union, hlt]
  · simp [bit, union, hlt]

/-- Insertion adds one kind to the members. It may be one of them already. -/
theorem contains_insert (s : KindSet) (k j : Kind) :
    (s.insert k).contains j = (s.contains j || decide (j = k)) := by
  have hiff : (j.index = k.index) ↔ (j = k) :=
    ⟨Kind.index_injective, fun h => by rw [h]⟩
  simp only [contains_eq_bit, bit_insert, hiff]

/-- A set made of a list has the members of the list, however often and in whatever
    order they stand there. -/
theorem contains_ofList (kinds : List Kind) (k : Kind) :
    (ofList kinds).contains k = kinds.contains k := by
  suffices hfold : ∀ (s : KindSet),
      (kinds.foldl insert s).contains k = (s.contains k || kinds.contains k) by
    simpa [ofList, contains_eq_bit, bit_empty] using hfold empty
  induction kinds with
  | nil => simp
  | cons j rest ih =>
    intro s
    rw [List.foldl_cons, ih, contains_insert, List.contains_cons, Bool.or_assoc]
    congr 2

/-- The members of a union are those of the two sets together. -/
theorem contains_union (s t : KindSet) (k : Kind) :
    (s.union t).contains k = (s.contains k || t.contains k) := by
  simp only [contains_eq_bit, bit_union]

end KindSet

end SqlStatement.Token
