import FiniteAutomata.Storage.StateBits
import Mathlib.Data.Finset.Card
import Mathlib.Data.List.Induction

/-!
# What sets in rows of bits show

A row of bits that has been through any commands keeps the finite set that the commands make: a bit
is on when it is the bit of a member. Its size does not show. Every question to the set, and every
question to two sets whose rows differ in size, has the answer of the finite sets. It is also the
answer of the ordered sets that the same commands make.
-/

namespace FiniteAutomata

namespace StateId

theorem ofNat_index (q : StateId) : ofNat q.index = q := by
  simp [ofNat, index]

theorem index_inj {p q : StateId} : p.index = q.index ↔ p = q := by
  constructor
  · intro h
    rw [← ofNat_index p, h, ofNat_index]
  · intro h
    rw [h]

theorem index_lt_index {p q : StateId} : p.index < q.index ↔ p < q := UInt32.lt_iff_toNat_lt.symm

end StateId

section Commands

def SetOperation.finsets (all : Nat → Finset StateId) (s : Finset StateId) :
    SetOperation → Finset StateId
  | new => ∅
  | withCapacity _ => ∅
  | singleton q => {q}
  | ofList qs => qs.toFinset
  | copy place => all place
  | insert q => Insert.insert q s
  | extend qs => s ∪ qs.toFinset
  | erase q => s.erase q
  | union place => s ∪ all place
  | clear => ∅

def SetCommand.finsets (all : Nat → Finset StateId) (c : SetCommand) : Nat → Finset StateId :=
  putAt all c.place (c.operation.finsets all (all c.place))

def finsetsAfter (cs : List SetCommand) : Nat → Finset StateId :=
  cs.foldl SetCommand.finsets fun _ => ∅

theorem finsetsAfter_concat (cs : List SetCommand) (c : SetCommand) :
    finsetsAfter (cs ++ [c]) = c.finsets (finsetsAfter cs) := List.foldl_concat ..

theorem SetOperation.mem_sets {sets : Nat → StateSet} {finsets : Nat → Finset StateId}
    (h : ∀ r q, q ∈ sets r ↔ q ∈ finsets r) {S : StateSet} {X : Finset StateId}
    (hS : ∀ q, q ∈ S ↔ q ∈ X) (op : SetOperation) (q : StateId) :
    q ∈ op.sets sets S ↔ q ∈ op.finsets finsets X := by
  cases op <;> simp [SetOperation.sets, SetOperation.finsets, h, hS, and_comm]

theorem mem_setsAfter (cs : List SetCommand) (r : Nat) :
    ∀ q, q ∈ setsAfter cs r ↔ q ∈ finsetsAfter cs r := by
  induction cs using List.reverseRecOn generalizing r with
  | nil => simp [setsAfter, finsetsAfter]
  | append_singleton cs c ih =>
      rw [setsAfter_concat, finsetsAfter_concat]
      have hset := SetOperation.mem_sets ih (ih c.place) c.operation
      exact rel_putAt (R := fun S X => ∀ q, q ∈ S ↔ q ∈ X) ih hset c.place r

end Commands

namespace StateBits

variable {β : Type} [BitRow β] {s t : StateBits β} {X Y : Finset StateId} {q : StateId}

/-- The bits that are on are those of the members of a set. -/
def Keeps (s : StateBits β) (X : Finset StateId) : Prop :=
  ∀ i, BitRow.test s.bits i ↔ ∃ q ∈ X, q.index = i

theorem Keeps.test_iff (h : s.Keeps X) {i : Nat} :
    BitRow.test s.bits i ↔ ∃ q ∈ X, q.index = i := h i

theorem Keeps.contains_iff (h : s.Keeps X) : s.contains q ↔ q ∈ X := by
  rw [contains, h.test_iff]
  simp [StateId.index_inj]

variable [LawfulBitRow β]

open LawfulBitRow

/-! ### What changes a set -/

theorem keeps_empty : (empty : StateBits β).Keeps ∅ := by
  intro i
  simp [empty, test_empty]

theorem keeps_emptyWithCapacity (room : Nat) : (emptyWithCapacity room : StateBits β).Keeps ∅ := by
  intro i
  simp [emptyWithCapacity, test_ofSize]

theorem keeps_clear (s : StateBits β) : s.clear.Keeps ∅ := by
  intro i
  simp [clear, test_clear]

theorem Keeps.insert? (h : s.Keeps X) (q : StateId) :
    ∃ t, s.insert? q = some (decide (q ∉ X), t) ∧ t.Keeps (insert q X) := by
  have hroom := le_size_ite_grow (b := s.bits) (c := BitRow.size s.bits ≤ q.index)
    (n := q.index + 1) (by omega)
  obtain ⟨row, hput, hrow⟩ := put?_eq_some hroom
  have hmem : BitRow.test s.bits q.index = decide (q ∈ X) := by
    rw [Bool.eq_iff_iff, decide_eq_true_iff]
    exact h.contains_iff
  simp only [test_ite_grow] at hput hrow
  refine ⟨⟨row⟩, by simp [StateBits.insert?, hput, hmem], fun i => ?_⟩
  rw [hrow]
  by_cases hi : i = q.index
  · simp [hi]
  · simp [hi, h i, Ne.symm hi]

theorem Keeps.extend? (h : s.Keeps X) (qs : List StateId) :
    ∃ t, s.extend? qs = some t ∧ t.Keeps (X ∪ qs.toFinset) := by
  induction qs generalizing s X with
  | nil => exact ⟨s, rfl, by simpa using h⟩
  | cons q qs ih =>
      obtain ⟨t, ht, hkeeps⟩ := h.insert? q
      obtain ⟨u, hu, hkeeps⟩ := ih hkeeps
      refine ⟨u, ?_, ?_⟩
      · simpa [StateBits.extend?, ht] using hu
      · simpa using hkeeps

theorem exists_ofList? (qs : List StateId) :
    ∃ s : StateBits β, ofList? qs = some s ∧ s.Keeps qs.toFinset := by
  simpa [ofList?] using keeps_empty.extend? (β := β) qs

theorem exists_singleton? (q : StateId) :
    ∃ s : StateBits β, singleton? q = some s ∧ s.Keeps {q} := by
  obtain ⟨s, hs, hkeeps⟩ := (keeps_emptyWithCapacity (β := β) (q.index + 1)).insert? q
  exact ⟨s, by simp [singleton?, hs], hkeeps⟩

theorem Keeps.erase? (h : s.Keeps X) (q : StateId) :
    ∃ t, s.erase? q = some t ∧ t.Keeps (X.erase q) := by
  by_cases hq : q.index < BitRow.size s.bits
  · obtain ⟨row, hset, hrow⟩ := set?_eq_some false hq
    refine ⟨⟨row⟩, by simp [StateBits.erase?, hq, hset], fun i => ?_⟩
    rw [hrow]
    by_cases hi : i = q.index
    · simp [hi, StateId.index_inj]
    · have hne : ∀ p : StateId, p.index = i → p ≠ q := fun p hp hpq => hi (hpq ▸ hp.symm)
      simp only [if_neg hi, h i, Finset.mem_erase]
      grind
  · have hmem : q ∉ X := fun hmem => hq (lt_size_of_test (h.contains_iff.2 hmem))
    refine ⟨s, if_neg hq, ?_⟩
    rwa [Finset.erase_eq_of_notMem hmem]

theorem Keeps.union (hs : s.Keeps X) (ht : t.Keeps Y) : (s.union t).Keeps (X ∪ Y) := by
  intro i
  have hroom := le_size_ite_grow (b := s.bits) (c := BitRow.size s.bits < BitRow.size t.bits)
    (n := BitRow.size t.bits) (by omega)
  simp only [StateBits.union, test_union hroom, test_ite_grow, Bool.or_eq_true, hs i, ht i,
    Finset.mem_union]
  grind

/-! ### Commands -/

theorem keeps_operation {all : Nat → StateBits β} {finsets : Nat → Finset StateId}
    (h : ∀ r, (all r).Keeps (finsets r)) (hs : s.Keeps X) (op : SetOperation) :
    ∃ t, op.bits? all s = some t ∧ t.Keeps (op.finsets finsets X) := by
  cases op with
  | new => exact ⟨_, rfl, keeps_empty⟩
  | withCapacity room => exact ⟨_, rfl, keeps_emptyWithCapacity room⟩
  | singleton q => exact exists_singleton? q
  | ofList qs => exact exists_ofList? qs
  | copy place => exact ⟨_, rfl, h place⟩
  | insert q =>
      obtain ⟨t, ht, hkeeps⟩ := hs.insert? q
      exact ⟨t, by simp [SetOperation.bits?, ht], hkeeps⟩
  | extend qs => exact hs.extend? qs
  | erase q => exact hs.erase? q
  | union place => exact ⟨_, rfl, hs.union (h place)⟩
  | clear => exact ⟨_, rfl, keeps_clear s⟩

theorem keeps_command {all : Nat → StateBits β} {finsets : Nat → Finset StateId}
    (h : ∀ r, (all r).Keeps (finsets r)) (c : SetCommand) :
    ∃ all', c.bits? all = some all' ∧ ∀ r, (all' r).Keeps (c.finsets finsets r) := by
  obtain ⟨t, ht, hkeeps⟩ := keeps_operation h (h c.place) c.operation
  exact ⟨putAt all c.place t, by simp [SetCommand.bits?, ht], rel_putAt h hkeeps c.place⟩

theorem keeps_after (cs : List SetCommand) :
    ∃ all, bitsAfter? β cs = some all ∧ ∀ r, (all r).Keeps (finsetsAfter cs r) := by
  induction cs using List.reverseRecOn with
  | nil => exact ⟨_, rfl, fun _ => keeps_empty⟩
  | append_singleton cs c ih =>
      obtain ⟨all, hall, hkeeps⟩ := ih
      obtain ⟨all', hall', hkeeps⟩ := keeps_command hkeeps c
      refine ⟨all', ?_, ?_⟩
      · rw [bitsAfter?_concat, hall, Option.bind_some, hall']
      · rwa [finsetsAfter_concat]

/-! ### Questions -/

structure Shows (s : StateBits β) (X : Finset StateId) : Prop where
  contains_iff : ∀ q, s.contains q ↔ q ∈ X
  isEmpty_iff : s.isEmpty ↔ X = ∅
  size_eq : s.size = X.card
  mem_members_iff : ∀ q, q ∈ s.members ↔ q ∈ X
  ascending : s.members.Pairwise (· < ·)
  only?_eq_some_iff : ∀ q, s.only? = some q ↔ X = {q}
  insert?_fst : ∀ q, (s.insert? q).map Prod.fst = some (decide (q ∉ X))

structure ShowBoth (s t : StateBits β) (X Y : Finset StateId) : Prop where
  intersects_iff : s.intersects t ↔ (X ∩ Y).Nonempty
  isSubset_iff : s.isSubset t ↔ X ⊆ Y
  beq_iff : s == t ↔ X = Y
  hashed_eq : X = Y → s.hashed = t.hashed

theorem mem_ones {b : β} {i : Nat} : i ∈ BitRow.ones b ↔ BitRow.test b i := by
  rw [ones_eq, List.mem_filter, List.mem_range]
  exact ⟨And.right, fun h => ⟨lt_size_of_test h, h⟩⟩

theorem Keeps.mem_members (h : s.Keeps X) : q ∈ s.members ↔ q ∈ X := by
  simp only [members, List.mem_map, mem_ones, h.test_iff]
  constructor
  · rintro ⟨i, ⟨p, hp, rfl⟩, rfl⟩
    rwa [StateId.ofNat_index]
  · intro hq
    exact ⟨q.index, ⟨q, hq, rfl⟩, StateId.ofNat_index q⟩

theorem Keeps.ascending (h : s.Keeps X) : s.members.Pairwise (· < ·) := by
  have hones : (BitRow.ones s.bits).Pairwise (· < ·) := by
    rw [ones_eq]
    exact List.pairwise_lt_range.filter _
  rw [members, List.pairwise_map]
  refine hones.imp_of_mem fun {i j} hi hj hij => ?_
  obtain ⟨p, -, rfl⟩ := (h i).1 (mem_ones.1 hi)
  obtain ⟨q, -, rfl⟩ := (h j).1 (mem_ones.1 hj)
  rwa [StateId.ofNat_index, StateId.ofNat_index, ← StateId.index_lt_index]

theorem Keeps.nodup_members (h : s.Keeps X) : s.members.Nodup := h.ascending.imp Std.ne_of_lt

theorem Keeps.members_eq_iff (h : s.Keeps X) {l : List StateId} (hl : l.Pairwise (· < ·)) :
    s.members = l ↔ ∀ q, q ∈ X ↔ q ∈ l := by
  constructor
  · rintro rfl q
    exact h.mem_members.symm
  · intro hX
    exact OrderedSet.eq_of_forall_mem_iff h.ascending hl fun q => h.mem_members.trans (hX q)

theorem Keeps.isEmpty_iff (h : s.Keeps X) : s.isEmpty ↔ X = ∅ := by
  rw [isEmpty, isClear_iff, Finset.eq_empty_iff_forall_notMem]
  constructor
  · intro hclear q hq
    exact Bool.false_ne_true ((hclear q.index).symm.trans (h.contains_iff.2 hq))
  · intro hX i
    rw [Bool.eq_false_iff]
    intro hi
    obtain ⟨q, hq, -⟩ := (h i).1 hi
    exact hX q hq

theorem size_eq_length (s : StateBits β) : s.size = s.members.length := by
  rw [size, count_eq, members, ones_eq, List.length_map, List.countP_eq_length_filter]

theorem Keeps.size_eq (h : s.Keeps X) : s.size = X.card := by
  have hX : s.members.toFinset = X := Finset.ext fun q => List.mem_toFinset.trans h.mem_members
  rw [← hX, List.toFinset_card_of_nodup h.nodup_members, size_eq_length]

theorem Keeps.only?_eq_some_iff (h : s.Keeps X) : s.only? = some q ↔ X = {q} := by
  rw [StateBits.only?_eq_some_iff, h.members_eq_iff (List.pairwise_singleton _ q)]
  simp [Finset.ext_iff]

theorem Keeps.shows (h : s.Keeps X) : s.Shows X where
  contains_iff _ := h.contains_iff
  isEmpty_iff := h.isEmpty_iff
  size_eq := h.size_eq
  mem_members_iff _ := h.mem_members
  ascending := h.ascending
  only?_eq_some_iff _ := h.only?_eq_some_iff
  insert?_fst q := by
    obtain ⟨t, ht, -⟩ := h.insert? q
    rw [ht]
    rfl

theorem Keeps.intersects_iff (hs : s.Keeps X) (ht : t.Keeps Y) :
    s.intersects t ↔ (X ∩ Y).Nonempty := by
  have hsome : s.intersects t ↔ ∃ i, i ∈ BitRow.commonOnes s.bits t.bits := by
    rw [intersects, List.isSome_head?, List.isEmpty_eq_false_iff_exists_mem.symm]
    simp
  simp only [hsome, mem_commonOnes, hs.test_iff, ht.test_iff]
  constructor
  · rintro ⟨i, ⟨p, hp, rfl⟩, q, hq, hpq⟩
    rw [StateId.index_inj] at hpq
    subst hpq
    exact ⟨q, Finset.mem_inter.2 ⟨hp, hq⟩⟩
  · rintro ⟨q, hq⟩
    obtain ⟨hX, hY⟩ := Finset.mem_inter.1 hq
    exact ⟨q.index, ⟨q, hX, rfl⟩, q, hY, rfl⟩

theorem Keeps.isSubset_iff (hs : s.Keeps X) (ht : t.Keeps Y) : s.isSubset t ↔ X ⊆ Y := by
  simp [isSubset, List.all_eq_true, hs.mem_members, ht.contains_iff, Finset.subset_iff]

theorem Keeps.members_eq_members_iff (hs : s.Keeps X) (ht : t.Keeps Y) :
    s.members = t.members ↔ X = Y := by
  rw [hs.members_eq_iff ht.ascending, Finset.ext_iff]
  exact forall_congr' fun q => iff_congr Iff.rfl ht.mem_members

theorem Keeps.showBoth (hs : s.Keeps X) (ht : t.Keeps Y) : s.ShowBoth t X Y where
  intersects_iff := hs.intersects_iff ht
  isSubset_iff := hs.isSubset_iff ht
  beq_iff := StateBits.beq_iff.trans (hs.members_eq_members_iff ht)
  hashed_eq h := congrArg (List.map StateId.raw) ((hs.members_eq_members_iff ht).2 h)

/-! ### The ordered sets beside them -/

structure Mirrors (s : StateBits β) (S : StateSet) : Prop where
  members_eq : s.members = S.toList
  contains_eq : ∀ q, s.contains q = decide (q ∈ S)
  isEmpty_eq : s.isEmpty = S.isEmpty
  size_eq : s.size = S.size
  only?_eq : s.only? = S.only?
  insert?_fst : ∀ q, (s.insert? q).map Prod.fst = some (!(S.containsThenInsert q).1)

structure MirrorBoth (s t : StateBits β) (S T : StateSet) : Prop where
  intersects_eq : s.intersects t = S.intersects T
  isSubset_eq : s.isSubset t = S.isSubset T
  beq_eq : (s == t) = decide (S = T)

variable {S T : StateSet}

theorem Keeps.members_eq_toList (h : s.Keeps X) (hS : ∀ q, q ∈ S ↔ q ∈ X) :
    s.members = S.toList :=
  (h.members_eq_iff S.ascending).2 fun q => (hS q).symm

theorem Keeps.mirrors (h : s.Keeps X) (hS : ∀ q, q ∈ S ↔ q ∈ X) : s.Mirrors S where
  members_eq := h.members_eq_toList hS
  contains_eq q := by
    rw [Bool.eq_iff_iff, h.contains_iff, decide_eq_true_iff, hS]
  isEmpty_eq := by
    rw [Bool.eq_iff_iff, h.isEmpty_iff, OrderedSet.isEmpty_iff_forall_not_mem,
      Finset.eq_empty_iff_forall_notMem]
    simp only [hS]
  size_eq := by
    rw [size_eq_length, h.members_eq_toList hS]
    rfl
  only?_eq := Option.ext fun q => by
    rw [StateBits.only?_eq_some_iff, h.members_eq_toList hS, OrderedSet.only?_eq_some_iff]
  insert?_fst q := by
    rw [h.shows.insert?_fst, OrderedSet.containsThenInsert]
    simp [hS]

theorem Keeps.mirrorBoth (hs : s.Keeps X) (ht : t.Keeps Y) (hS : ∀ q, q ∈ S ↔ q ∈ X)
    (hT : ∀ q, q ∈ T ↔ q ∈ Y) : s.MirrorBoth t S T where
  intersects_eq := by
    rw [Bool.eq_iff_iff, hs.intersects_iff ht, OrderedSet.intersects_iff]
    simp [Finset.Nonempty, hS, hT]
  isSubset_eq := by
    rw [Bool.eq_iff_iff, hs.isSubset_iff ht, OrderedSet.isSubset_iff]
    simp [Finset.subset_iff, hS, hT]
  beq_eq := by
    rw [Bool.eq_iff_iff, beq_iff, decide_eq_true_iff, hs.members_eq_toList hS,
      ht.members_eq_toList hT]
    exact ⟨fun h => OrderedSet.ext_mem fun q => by simp only [← OrderedSet.mem_toList, h],
      congrArg OrderedSet.toList⟩

/-- After any commands each row of bits shows the finite set that the commands make, alone and
beside any other, and no bit beyond a row was set on the way. So it does what the ordered set made
by the same commands does. An array of states, in any order and with repetitions, is read and
written back as the ascending array of its members. -/
theorem stored_sets_show_finite_sets (β : Type) [BitRow β] [LawfulBitRow β] :
    (∀ cs : List SetCommand, ∃ all, bitsAfter? β cs = some all ∧
      (∀ r, (all r).Shows (finsetsAfter cs r) ∧ (all r).Mirrors (setsAfter cs r)) ∧
      ∀ r r', (all r).ShowBoth (all r') (finsetsAfter cs r) (finsetsAfter cs r') ∧
        (all r).MirrorBoth (all r') (setsAfter cs r) (setsAfter cs r')) ∧
    ∀ qs : List StateId, ∃ l : List StateId,
      (ofTokens? (StateId.arrayToTokens qs) : Option (StateBits β)).map toTokens =
        some (StateId.arrayToTokens l) ∧
      (StateSet.ofTokens? (StateId.arrayToTokens qs)).map OrderedSet.toList = some l ∧
      l.Pairwise (· < ·) ∧ ∀ q, q ∈ l ↔ q ∈ qs := by
  constructor
  · intro cs
    obtain ⟨all, hall, hkeeps⟩ := keeps_after (β := β) cs
    have hsets := mem_setsAfter cs
    refine ⟨all, hall, fun r => ?_, fun r r' => ?_⟩
    · exact ⟨(hkeeps r).shows, (hkeeps r).mirrors (hsets r)⟩
    · exact ⟨(hkeeps r).showBoth (hkeeps r'),
        (hkeeps r).mirrorBoth (hkeeps r') (hsets r) (hsets r')⟩
  · intro qs
    obtain ⟨s, hs, hkeeps⟩ := exists_ofList? (β := β) qs
    refine ⟨s.members, ?_, ?_, hkeeps.ascending, fun q => ?_⟩
    · rw [ofTokens?, StateId.arrayOfTokens?_arrayToTokens, Option.bind_some, hs]
      rfl
    · rw [StateSet.ofTokens?, StateId.arrayOfTokens?_arrayToTokens]
      exact congrArg some (hkeeps.members_eq_toList (by simp)).symm
    · exact hkeeps.mem_members.trans List.mem_toFinset

/-- Both places hold the set of one state, one in a row that grew for a state that is gone and one
in a row that was made with room. -/
theorem rows_of_two_sizes_show_one_set :
    let cs : List SetCommand := [⟨0, .singleton (.ofNat 3)⟩, ⟨1, .withCapacity 64⟩,
      ⟨1, .insert (.ofNat 3)⟩, ⟨0, .insert (.ofNat 70)⟩, ⟨0, .erase (.ofNat 70)⟩,
      ⟨1, .erase (.ofNat 1000)⟩]
    (bitsAfter? Bits cs).map (fun all => ((all 0).bits.size, (all 1).bits.size)) = some (71, 64) ∧
      finsetsAfter cs 0 = {.ofNat 3} ∧ finsetsAfter cs 1 = {.ofNat 3} ∧
      ∃ all, bitsAfter? Bits cs = some all ∧ (all 0 == all 1) ∧ (all 0).isSubset (all 1) ∧
        (all 0).only? = some (.ofNat 3) ∧ (all 0).hashed = (all 1).hashed ∧
        ¬ (all 1).contains (.ofNat 70) := by
  intro cs
  have h0 : finsetsAfter cs 0 = {.ofNat 3} := by decide
  have h1 : finsetsAfter cs 1 = {.ofNat 3} := by decide
  obtain ⟨all, hall, hshows, hboth⟩ := (stored_sets_show_finite_sets Bits).1 cs
  have heq : finsetsAfter cs 0 = finsetsAfter cs 1 := h0.trans h1.symm
  have hone := (hboth 0 1).1
  refine ⟨by decide, h0, h1, all, hall, hone.beq_iff.2 heq, hone.isSubset_iff.2 heq.subset,
    ((hshows 0).1.only?_eq_some_iff _).2 h0, hone.hashed_eq heq, ?_⟩
  rw [(hshows 1).1.contains_iff, h1]
  decide

end StateBits

end FiniteAutomata
