import SqlStatement.Token.KindSet

namespace SqlStatement.Token

namespace Kind

/-- Every kind stands in the list of all kinds at its number. -/
theorem map_index_all : all.map index = List.range all.length := by
  decide +kernel

/-- So the numbers of the kinds in the list only increase. -/
theorem pairwise_index_all : all.Pairwise (·.index < ·.index) := by
  rw [← List.pairwise_map, map_index_all]
  exact List.pairwise_lt_range

/-- All kinds are found by going over their numbers. -/
theorem filterMap_ofIndex? : (List.range all.length).filterMap ofIndex? = all := by
  have hfound : (ofIndex? ∘ index : Kind → Option Kind) = some := funext ofIndex?_index
  rw [← map_index_all, List.filterMap_map, hfound, List.filterMap_some]

/-- Every number up to that of the last kind is the number of a kind. -/
theorem exists_index_eq {i : Nat} (hi : i < all.length) : ∃ k : Kind, k.index = i := by
  rw [← List.mem_range, ← map_index_all] at hi
  obtain ⟨k, -, hk⟩ := List.mem_map.mp hi
  exact ⟨k, hk⟩

end Kind

/-- The bits of a word are counted one after the other. The induction is on how many
    of them have been counted. -/
theorem toNat_cpop_eq_countP {w : Nat} (x : BitVec w) :
    x.cpop.toNat = (List.range w).countP x.getLsbD := by
  suffices hfirst : ∀ n, x.cpopNatRec n 0 = (List.range n).countP x.getLsbD by
    rw [BitVec.toNat_cpop, hfirst]
  intro n
  induction n with
  | zero => rfl
  | succ n ih =>
    rw [BitVec.cpopNatRec_succ, BitVec.cpopNatRec_add, ih, List.range_succ, List.countP_append,
      List.countP_singleton]
    cases x.getLsbD n <;> rfl

/-- The bits of several words are counted one word after the other. The induction is
    on the words, with the bits of the words in front already counted. -/
theorem foldl_cpop_eq_countP (ws : List (BitVec 64)) (n : Nat) :
    ws.foldl (fun n w => n + w.cpop.toNat) n =
      n + (List.range (64 * ws.length)).countP fun i =>
        (ws[i / 64]?.getD 0#64).getLsbD (i % 64) := by
  induction ws generalizing n with
  | nil => simp
  | cons w ws ih =>
    have hlength : 64 * (w :: ws).length = 64 + 64 * ws.length := by
      rw [List.length_cons, Nat.mul_add, Nat.mul_one, Nat.add_comm]
    have hfirst : ∀ i ∈ List.range 64,
        (((w :: ws)[i / 64]?.getD 0#64).getLsbD (i % 64) = true) ↔ w.getLsbD i = true := by
      intro i hi
      have hlt : i < 64 := List.mem_range.mp hi
      simp [Nat.div_eq_of_lt hlt, Nat.mod_eq_of_lt hlt]
    rw [List.foldl_cons, ih, hlength, List.range_add, List.countP_append, List.countP_map,
      List.countP_congr hfirst, toNat_cpop_eq_countP, Nat.add_assoc]
    simp [Function.comp_def, Nat.add_comm 64]

namespace KindSet

/-- A set that is made of kinds by `ofList` and `union`. -/
inductive Built : KindSet → Prop
  | ofList (kinds : List Kind) : Built (.ofList kinds)
  | union {s t : KindSet} (hs : Built s) (ht : Built t) : Built (s.union t)

variable {s t : KindSet}

/-- Only bits of kinds are set. -/
def Proper (s : KindSet) : Prop := ∀ i, Kind.all.length ≤ i → s.bit i = false

/-- A set that is made of kinds has only bits of kinds set. Each step sets the bit
    of a kind and leaves the others as they are. -/
theorem proper_ofList (kinds : List Kind) : (ofList kinds).Proper := by
  suffices hfold : ∀ s : KindSet, s.Proper → (kinds.foldl insert s).Proper from
    hfold empty fun i _ => bit_empty i
  induction kinds with
  | nil => exact fun _ hs => hs
  | cons k rest ih =>
    refine fun s hs => ih (s.insert k) fun i hi => ?_
    have hne : i ≠ k.index := by
      have hlt := k.index_lt
      rw [Kind.length_all] at hi
      omega
    rw [bit_insert, hs i hi, decide_eq_false hne, Bool.or_false]

theorem Proper.union (hs : s.Proper) (ht : t.Proper) : (s.union t).Proper := fun i hi => by
  rw [bit_union, hs i hi, ht i hi, Bool.or_false]

/-- However a set is made of kinds, no other bit is set in it. -/
theorem Built.proper (h : s.Built) : s.Proper := by
  induction h with
  | ofList kinds => exact proper_ofList kinds
  | union _ _ ihs iht => exact ihs.union iht

/-- The size of a set is the number of its bits. -/
theorem size_eq_countP (s : KindSet) : s.size = (List.range 256).countP s.bit := by
  rw [size, foldl_cpop_eq_countP, Nat.zero_add, Vector.length_toList]
  refine List.countP_congr fun i _ => ?_
  simp [bit]

/-- Sets with the same bits are the same, word for word. A set has four words, and
    every bit of it is in one of them. -/
theorem ext_bit (h : ∀ i, s.bit i = t.bit i) : s = t := by
  obtain ⟨v⟩ := s
  obtain ⟨w⟩ := t
  congr
  apply Vector.ext
  intro i hi
  apply BitVec.eq_of_getLsbD_eq
  intro j hj
  have hdiv : (64 * i + j) / 64 = i := by omega
  have hmod : (64 * i + j) % 64 = j := by omega
  simpa [bit, hdiv, hmod, hi] using h (64 * i + j)

/-- Sets of kinds with the same members have the same words. For this no other bit
    may be set, because members do not tell about it. -/
theorem Proper.eq_iff (hs : s.Proper) (ht : t.Proper) :
    s = t ↔ ∀ k, s.contains k = t.contains k := by
  refine ⟨fun h _ => by rw [h], fun h => ext_bit fun i => ?_⟩
  rcases Nat.lt_or_ge i Kind.all.length with hlt | hge
  · obtain ⟨k, rfl⟩ := Kind.exists_index_eq hlt
    rw [← contains_eq_bit, ← contains_eq_bit, h k]
  · rw [hs i hge, ht i hge]

/-- Counting the bits of a set of kinds counts its members. Each bit that is set is
    that of one kind, and different kinds have different bits. -/
theorem Proper.size_eq (hs : s.Proper) : s.size = s.toList.length := by
  have hrange : List.range 256 = List.range Kind.all.length ++
      (List.range (256 - Kind.all.length)).map (Kind.all.length + ·) := by
    rw [← List.range_add, Kind.length_all]
  have hrest :
      ((List.range (256 - Kind.all.length)).map (Kind.all.length + ·)).countP s.bit = 0 := by
    rw [List.countP_eq_zero, List.forall_mem_map]
    intro i _
    rw [hs _ (Nat.le_add_right _ i)]
    exact Bool.false_ne_true
  have hbits : s.contains = s.bit ∘ Kind.index := funext s.contains_eq_bit
  rw [size_eq_countP, hrange, List.countP_append, hrest, Nat.add_zero, ← Kind.map_index_all,
    List.countP_map, toList, hbits, List.countP_eq_length_filter]

theorem mem_toList (s : KindSet) (k : Kind) : k ∈ s.toList ↔ s.contains k = true := by
  simp [toList, k.mem_all]

theorem pairwise_toList (s : KindSet) : s.toList.Pairwise (·.index < ·.index) :=
  Kind.pairwise_index_all.filter _

/-- A set of kinds is empty if no bit is set in it. The words are tested for zero,
    and a word is zero if none of its bits is set. -/
theorem Proper.isEmpty_iff (hs : s.Proper) : s.isEmpty = true ↔ s.size = 0 := by
  rw [KindSet.isEmpty_iff]
  constructor
  · rintro rfl
    rfl
  · intro hsize
    rw [size_eq_countP, List.countP_eq_zero] at hsize
    refine ext_bit fun i => ?_
    rw [bit_empty]
    rcases Nat.lt_or_ge i 256 with hlt | hge
    · exact Bool.eq_false_iff.mpr (hsize i (List.mem_range.mpr hlt))
    · have hall := Kind.length_all
      exact hs i (by omega)

/-- Whichever way a set is asked for its members, it answers with those of a list. -/
structure Holds (s : KindSet) (kinds : List Kind) : Prop where
  contains : ∀ k, s.contains k = true ↔ k ∈ kinds
  toList : ∀ k, k ∈ s.toList ↔ k ∈ kinds
  /-- So no member is listed twice. -/
  sorted : s.toList.Pairwise (·.index < ·.index)
  /-- The list is found by going over the numbers of all kinds. -/
  scan : s.toList = ((List.range Kind.all.length).filterMap Kind.ofIndex?).filter s.contains
  size : s.size = s.toList.length
  isEmpty : s.isEmpty = true ↔ s.size = 0

/-- A set that is made of a list answers with the members of the list, whichever way
    it is asked. -/
theorem holds_ofList (kinds : List Kind) : (ofList kinds).Holds kinds where
  contains k := by rw [contains_ofList, List.contains_iff_mem]
  toList k := by rw [mem_toList, contains_ofList, List.contains_iff_mem]
  sorted := pairwise_toList _
  scan := by rw [Kind.filterMap_ofIndex?, KindSet.toList]
  size := (proper_ofList kinds).size_eq
  isEmpty := (proper_ofList kinds).isEmpty_iff

/-- The union of two lists of kinds is the set of both lists. So every set that is
    made of kinds is that of a list. -/
theorem union_ofList (a b : List Kind) : (ofList a).union (ofList b) = ofList (a ++ b) := by
  have hproper := (proper_ofList a).union (proper_ofList b)
  rw [hproper.eq_iff (proper_ofList (a ++ b))]
  intro k
  simp only [contains_union, contains_ofList, List.contains_append]

/-- Sets are the same if their four words are. A set is a vector of words, and has
    nothing else in it. -/
theorem eq_iff_words : s = t ↔ ∀ i : Fin 4, s.words[i] = t.words[i] := by
  refine ⟨fun h _ => by rw [h], fun h => ?_⟩
  obtain ⟨v⟩ := s
  obtain ⟨w⟩ := t
  congr
  exact Vector.ext fun i hi => h ⟨i, hi⟩

/-- Sets of kinds are finite sets: one that is made of a list has the members of the
    list, the union has those of both, and sets that are made of kinds are equal
    word for word if and only if they have the same members. -/
theorem ofList_faithful :
    (∀ kinds, (ofList kinds).Holds kinds) ∧
    (∀ a b, (ofList a).union (ofList b) = ofList (a ++ b)) ∧
    ∀ s t : KindSet, s.Built → t.Built →
      (s = t ↔ ∀ i : Fin 4, s.words[i] = t.words[i]) ∧
      (s = t ↔ ∀ k, s.contains k = t.contains k) :=
  ⟨holds_ofList, union_ofList, fun _ _ hs ht => ⟨eq_iff_words, hs.proper.eq_iff ht.proper⟩⟩

/-- The kinds 63, 64 and 127, at the ends of the words, from two sets and in another
    order. The words of the two sets are the same, bit for bit. -/
theorem ofList_faithful_ends :
    let s := (ofList [.keyword .TEMP, .keyword .DESC]).union (ofList [.keyword .DETACH])
    let t := ofList [.keyword .DETACH, .keyword .DESC, .keyword .TEMP, .keyword .DESC]
    s.Built ∧ t.Built ∧
      s.words = #v[0x8000000000000000#64, 0x8000000000000001#64, 0#64, 0#64] ∧
      ∀ k, s.contains k = t.contains k := by
  have hs := Built.union (.ofList [.keyword .TEMP, .keyword .DESC]) (.ofList [.keyword .DETACH])
  have ht := Built.ofList [.keyword .DETACH, .keyword .DESC, .keyword .TEMP, .keyword .DESC]
  refine ⟨hs, ht, by decide +kernel, ?_⟩
  exact (ofList_faithful.2.2 _ _ hs ht).2.mp (by decide +kernel)

end KindSet

end SqlStatement.Token
