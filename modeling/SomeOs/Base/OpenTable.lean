import SomeOs.Base.LinearProbe

/-! # Tables with deleted slots

A circular table of slots, some of which are marked as deleted. A value is at some distance from its
home slot, and no slot on the way to it is empty: a deleted slot keeps the way open. A value is put
into a slot on its way that has none, removed by marking its slot, and moved by doing both.
-/
namespace SomeOs.OpenTable
open LinearProbe

inductive Slot (ν : Type*) where
  | empty
  | deleted
  | node (n : ν)
  deriving DecidableEq

structure Table (ν : Type*) where
  slots : ℕ → Slot ν
  capacity : ℕ

variable {ν : Type*} {hash : ν → ℕ} {t : Table ν} {n m : ν} {i k : ℕ}

namespace Table

def way (t : Table ν) (home : ℕ) (k : ℕ) : ℕ := (home % t.capacity + k) % t.capacity

def set (t : Table ν) (i : ℕ) (slot : Slot ν) : Table ν := { t with slots := Function.update t.slots i slot }

def Holds (t : Table ν) (n : ν) : Prop := ∃ i < t.capacity, t.slots i = .node n

def Free (t : Table ν) (i : ℕ) : Prop := ∀ n, t.slots i ≠ .node n

end Table

structure Wf (hash : ν → ℕ) (t : Table ν) : Prop where
  onWay : ∀ i n, i < t.capacity → t.slots i = .node n →
    ∃ k < t.capacity, i = t.way (hash n) k ∧ ∀ j < k, t.slots (t.way (hash n) j) ≠ .empty
  unique : ∀ i j n, i < t.capacity → j < t.capacity → t.slots i = .node n → t.slots j = .node n → i = j

@[simp] theorem set_capacity (slot : Slot ν) : (t.set i slot).capacity = t.capacity := rfl

@[simp] theorem set_way (slot : Slot ν) (home k : ℕ) : (t.set i slot).way home k = t.way home k := rfl

@[simp] theorem set_slots_self (slot : Slot ν) : (t.set i slot).slots i = slot := Function.update_self ..

theorem set_slots_of_ne {slot : Slot ν} {j : ℕ} (h : j ≠ i) : (t.set i slot).slots j = t.slots j := Function.update_of_ne h ..

theorem way_lt (h : 0 < t.capacity) (home k : ℕ) : t.way home k < t.capacity := Nat.mod_lt _ h

theorem set_ne_empty {slot : Slot ν} (hslot : slot ≠ .empty) {j : ℕ} (h : t.slots j ≠ .empty) :
    (t.set i slot).slots j ≠ .empty := by
  by_cases hj : j = i
  · subst hj
    rwa [set_slots_self]
  · rwa [set_slots_of_ne hj]

theorem Wf.remove (hw : Wf hash t) (hi : i < t.capacity) (hn : t.slots i = .node n) :
    Wf hash (t.set i .deleted) ∧ ∀ m, (t.set i .deleted).Holds m ↔ m ≠ n ∧ t.Holds m := by
  have hslot : ∀ j m, (t.set i .deleted).slots j = .node m ↔ j ≠ i ∧ t.slots j = .node m := by
    intro j m
    by_cases hj : j = i
    · subst hj
      simp
    · rw [set_slots_of_ne hj]
      simp [hj]
  refine ⟨⟨fun j m hj hm => ?_, fun j j' m hj hj' hm hm' => ?_⟩, fun m => ⟨?_, ?_⟩⟩
  · obtain ⟨k, hk, hway, hbefore⟩ := hw.onWay j m hj ((hslot j m).mp hm).2
    exact ⟨k, hk, hway, fun l hl => set_ne_empty (by simp) (hbefore l hl)⟩
  · exact hw.unique j j' m hj hj' ((hslot j m).mp hm).2 ((hslot j' m).mp hm').2
  · rintro ⟨j, hj, hm⟩
    obtain ⟨hne, hm⟩ := (hslot j m).mp hm
    refine ⟨?_, j, hj, hm⟩
    rintro rfl
    exact hne (hw.unique j i m hj hi hm hn)
  · rintro ⟨hne, j, hj, hm⟩
    refine ⟨j, hj, (hslot j m).mpr ⟨?_, hm⟩⟩
    rintro rfl
    rw [hn] at hm
    exact hne (Slot.node.inj hm).symm

theorem Wf.insert (hw : Wf hash t) (habsent : ¬t.Holds n) (hk : k < t.capacity) (hfree : t.Free (t.way (hash n) k))
    (hbefore : ∀ j < k, t.slots (t.way (hash n) j) ≠ .empty) :
    Wf hash (t.set (t.way (hash n) k) (.node n)) ∧ ∀ m, (t.set (t.way (hash n) k) (.node n)).Holds m ↔ m = n ∨ t.Holds m := by
  have hlt : t.way (hash n) k < t.capacity := way_lt (by omega) _ _
  generalize hi : t.way (hash n) k = i at hlt hfree ⊢
  have hslot : ∀ j m, (t.set i (.node n)).slots j = .node m ↔ j = i ∧ m = n ∨ j ≠ i ∧ t.slots j = .node m := by
    intro j m
    by_cases hj : j = i
    · subst hj
      simp [eq_comm]
    · rw [set_slots_of_ne hj]
      simp [hj]
  refine ⟨⟨fun j m hj hm => ?_, fun j j' m hj hj' hm hm' => ?_⟩, fun m => ⟨?_, ?_⟩⟩
  · rcases (hslot j m).mp hm with ⟨rfl, rfl⟩ | ⟨-, hm⟩
    · exact ⟨k, hk, hi.symm, fun l hl => set_ne_empty (by simp) (hbefore l hl)⟩
    · obtain ⟨k', hk', hway, hbefore'⟩ := hw.onWay j m hj hm
      exact ⟨k', hk', hway, fun l hl => set_ne_empty (by simp) (hbefore' l hl)⟩
  · rcases (hslot j m).mp hm with ⟨rfl, rfl⟩ | ⟨-, hold⟩
    · rcases (hslot j' m).mp hm' with ⟨rfl, -⟩ | ⟨-, hold'⟩
      · rfl
      · exact absurd ⟨j', hj', hold'⟩ habsent
    · rcases (hslot j' m).mp hm' with ⟨-, rfl⟩ | ⟨-, hold'⟩
      · exact absurd ⟨j, hj, hold⟩ habsent
      · exact hw.unique j j' m hj hj' hold hold'
  · rintro ⟨j, hj, hm⟩
    rcases (hslot j m).mp hm with ⟨-, rfl⟩ | ⟨-, hm⟩
    · exact Or.inl rfl
    · exact Or.inr ⟨j, hj, hm⟩
  · rintro (rfl | ⟨j, hj, hm⟩)
    · exact ⟨i, hlt, (hslot i m).mpr (Or.inl ⟨rfl, rfl⟩)⟩
    · exact ⟨j, hj, (hslot j m).mpr (Or.inr ⟨fun h => hfree m (h ▸ hm), hm⟩)⟩

theorem Wf.mark (hw : Wf hash t) (hempty : t.slots i = .empty) :
    Wf hash (t.set i .deleted) ∧ ∀ m, (t.set i .deleted).Holds m ↔ t.Holds m := by
  have hslot : ∀ j m, (t.set i .deleted).slots j = .node m ↔ t.slots j = .node m := by
    intro j m
    by_cases hj : j = i
    · subst hj
      rw [set_slots_self, hempty]
      simp
    · rw [set_slots_of_ne hj]
  refine ⟨⟨fun j m hj hm => ?_, fun j j' m hj hj' hm hm' => ?_⟩, fun m => ?_⟩
  · obtain ⟨k, hk, hway, hbefore⟩ := hw.onWay j m hj ((hslot j m).mp hm)
    exact ⟨k, hk, hway, fun l hl => set_ne_empty (by simp) (hbefore l hl)⟩
  · exact hw.unique j j' m hj hj' ((hslot j m).mp hm) ((hslot j' m).mp hm')
  · simp only [Table.Holds, hslot, set_capacity]

theorem Wf.exists_free (hw : Wf hash t) {S : Finset ν} (hS : ∀ n, t.Holds n → n ∈ S) (hcard : S.card < t.capacity) :
    ∃ i < t.capacity, t.Free i := by
  classical
  by_contra hno
  push Not at hno
  have hnode : ∀ i : Fin t.capacity, ∃ n, t.slots i = .node n := fun i => by
    have := hno i i.isLt
    simpa [Table.Free] using this
  choose f hf using hnode
  have hinj : Function.Injective f := fun i j hij => Fin.ext (hw.unique i j (f i) i.isLt j.isLt (hf i) (by rw [hij]; exact hf j))
  have hle : (Finset.univ.image f).card ≤ S.card := Finset.card_le_card fun n hn => by
    obtain ⟨i, -, rfl⟩ := Finset.mem_image.mp hn
    exact hS _ ⟨i, i.isLt, hf i⟩
  rw [Finset.card_image_of_injective _ hinj, Finset.card_fin] at hle
  omega

def Slot.isNode : Slot ν → Bool
  | .node _ => true
  | _ => false

def Table.used (t : Table ν) : Finset ℕ := (Finset.range t.capacity).filter fun i => (t.slots i).isNode

theorem Slot.isNode_iff {slot : Slot ν} : slot.isNode = true ↔ ∃ n, slot = .node n := by
  cases slot <;> simp [Slot.isNode]

theorem mem_used : i ∈ t.used ↔ i < t.capacity ∧ ∃ n, t.slots i = .node n := by
  rw [Table.used, Finset.mem_filter, Finset.mem_range, Slot.isNode_iff]

theorem used_set {slot : Slot ν} {j : ℕ} (h : j ≠ i) : j ∈ (t.set i slot).used ↔ j ∈ t.used := by
  rw [mem_used, mem_used, set_slots_of_ne h, set_capacity]

theorem card_used_insert (hi : i < t.capacity) (hfree : t.Free i) : (t.set i (.node n)).used.card = t.used.card + 1 := by
  have hnot : i ∉ t.used := fun h => by
    obtain ⟨-, m, hm⟩ := mem_used.mp h
    exact hfree m hm
  have hused : (t.set i (.node n)).used = insert i t.used := by
    ext j
    by_cases hj : j = i
    · subst hj
      simp [mem_used, hi]
    · rw [used_set hj, Finset.mem_insert, or_iff_right hj]
  rw [hused, Finset.card_insert_of_notMem hnot]

theorem card_used_remove (hi : i < t.capacity) (hn : t.slots i = .node n) :
    (t.set i .deleted).used.card = t.used.card - 1 := by
  have hused : (t.set i .deleted).used = t.used.erase i := by
    ext j
    by_cases hj : j = i
    · subst hj
      simp [mem_used]
    · rw [used_set hj, Finset.mem_erase, and_iff_right hj]
  rw [hused, Finset.card_erase_of_mem (mem_used.mpr ⟨hi, n, hn⟩)]

theorem card_used_mark (hempty : t.slots i = .empty) : (t.set i .deleted).used.card = t.used.card := by
  congr 1
  ext j
  by_cases hj : j = i
  · subst hj
    simp [mem_used, hempty]
  · rw [used_set hj]

theorem exists_free_of_card (h : t.used.card < t.capacity) : ∃ i < t.capacity, t.Free i := by
  by_contra hno
  push Not at hno
  have hall : t.used = Finset.range t.capacity := by
    ext i
    rw [mem_used, Finset.mem_range, and_iff_left_iff_imp]
    intro hi
    simpa [Table.Free] using hno i hi
  rw [hall, Finset.card_range] at h
  exact lt_irrefl _ h

theorem Wf.congr_hash {hash' : ν → ℕ} (hw : Wf hash t) (h : ∀ n, t.Holds n → hash' n = hash n) : Wf hash' t where
  onWay i n hi hn := by
    rw [h n ⟨i, hi, hn⟩]
    exact hw.onWay i n hi hn
  unique := hw.unique

theorem way_injective {home j : ℕ} (hj : j < t.capacity) (hk : k < t.capacity) (h : t.way home j = t.way home k) : j = k :=
  Nat.ModEq.eq_of_lt_of_lt (Nat.ModEq.add_left_cancel' _ h) hj hk

/-- A loop over the slots until one of them stops it. Without such a slot it does not end. -/
def seek (stop : ℕ → Bool) (cap start : ℕ) : Option ℕ :=
  let idx := probe stop cap cap start
  if stop idx then some idx else none

theorem seek_spec {stop : ℕ → Bool} {cap start : ℕ} (hs : start < cap) (hex : ∃ i < cap, stop i = true) :
    ∃ k < cap, seek stop cap start = some ((start + k) % cap) ∧ stop ((start + k) % cap) = true ∧
      ∀ j < k, stop ((start + j) % cap) = false := by
  obtain ⟨k, hk, hprobe, hstop, hbefore⟩ := probe_spec start hs hex
  refine ⟨k, hk, ?_, hstop, hbefore⟩
  rw [seek, hprobe]
  exact if_pos hstop

/-- A search that remembers the last deleted slot, and ends with nothing when it is back at its start. Without fuel it has
not ended. -/
def search (t : Table ν) (stop : Slot ν → Bool) (start : ℕ) : ℕ → ℕ → Option ℕ → Option (Option (ℕ × Option ℕ))
  | 0, _, _ => none
  | fuel + 1, idx, first_free =>
    if stop (t.slots idx) then some (some (idx, first_free))
    else
      let first_free := match t.slots idx with
        | .deleted => some idx
        | _ => first_free
      let idx := (idx + 1) % t.capacity
      if idx = start then some none else search t stop start fuel idx first_free

def lastDeleted (t : Table ν) (start : ℕ) : ℕ → Option ℕ
  | 0 => none
  | k + 1 =>
    match t.slots ((start + k) % t.capacity) with
    | .deleted => some ((start + k) % t.capacity)
    | _ => lastDeleted t start k

theorem lastDeleted_spec {start : ℕ} (h : lastDeleted t start k = some i) :
    ∃ j < k, i = (start + j) % t.capacity ∧ t.slots i = .deleted := by
  induction k with
  | zero => cases h
  | succ k ih =>
    unfold lastDeleted at h
    split at h
    · next hslot =>
      cases h
      exact ⟨k, Nat.lt_succ_self k, rfl, hslot⟩
    · obtain ⟨j, hj, hi⟩ := ih h
      exact ⟨j, Nat.lt_succ_of_lt hj, hi⟩

section Search
variable {stop : Slot ν → Bool} {start : ℕ}

theorem next_slot (j : ℕ) : ((start + j) % t.capacity + 1) % t.capacity = (start + (j + 1)) % t.capacity := by
  rw [Nat.mod_add_mod]
  rfl

theorem not_back {cap j : ℕ} (hs : start < cap) (hpos : 0 < j) (hj : j < cap) : (start + j) % cap ≠ start :=
  @ProbeLoop.not_back ⟨fun _ => true, true, cap, start⟩ j hs hpos hj

theorem search_next {fuel j : ℕ} (hgo : stop (t.slots ((start + j) % t.capacity)) = false)
    (hback : (start + (j + 1)) % t.capacity ≠ start) :
    search t stop start (fuel + 1) ((start + j) % t.capacity) (lastDeleted t start j) =
      search t stop start fuel ((start + (j + 1)) % t.capacity) (lastDeleted t start (j + 1)) := by
  rw [search, hgo, next_slot]
  simp only [Bool.false_eq_true, if_false, if_neg hback]
  rfl

theorem search_stops {fuel j : ℕ} (hs : start < t.capacity) (hjk : j ≤ k) (hk : k < t.capacity) (hfuel : k - j < fuel)
    (hstop : stop (t.slots ((start + k) % t.capacity)) = true)
    (hbefore : ∀ l < k, stop (t.slots ((start + l) % t.capacity)) = false) :
    search t stop start fuel ((start + j) % t.capacity) (lastDeleted t start j) =
      some (some ((start + k) % t.capacity, lastDeleted t start k)) := by
  induction fuel generalizing j with
  | zero => omega
  | succ fuel ih =>
    rcases Nat.lt_or_ge j k with hlt | hge
    · rw [search_next (hbefore j hlt) (not_back hs (by omega) (by omega)), ih hlt (by omega)]
    · obtain rfl : j = k := by omega
      rw [search, hstop, if_pos rfl]

theorem search_fails {fuel j : ℕ} (hs : start < t.capacity) (hj : j < t.capacity) (hfuel : t.capacity - j ≤ fuel)
    (hgo : ∀ i < t.capacity, stop (t.slots i) = false) :
    search t stop start fuel ((start + j) % t.capacity) (lastDeleted t start j) = some none := by
  induction fuel generalizing j with
  | zero => omega
  | succ fuel ih =>
    have hnow := hgo ((start + j) % t.capacity) (Nat.mod_lt _ (by omega))
    rcases Nat.lt_or_ge (j + 1) t.capacity with hlt | hge
    · rw [search_next hnow (not_back hs (by omega) hlt), ih hlt (by omega)]
    · have hback : (start + (j + 1)) % t.capacity = start := by
        rw [show j + 1 = t.capacity by omega, Nat.add_mod_right, Nat.mod_eq_of_lt hs]
      rw [search, hnow, next_slot]
      simp only [Bool.false_eq_true, if_false, if_pos hback]

end Search

end SomeOs.OpenTable
