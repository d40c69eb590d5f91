import SomeOs.Base.LinearProbe

/-! # Robin Hood tables

A circular table in which a value may be away from its home slot, by its probe length. A value that is
inserted takes the slot of one with a shorter probe length, which is then carried on. So the probe
length grows by at most one from a slot to the next, which is what lets a search give up early. When a
value is removed, those behind it that are not at home are moved back by one slot.
-/
namespace SomeOs.RobinHood

/-- `(size + idx - home % size) % size` -/
def probeLength (size home idx : ℕ) : ℕ := (size + idx - home % size) % size

variable {α : Type*} {κ : Type*}

section Loops
variable [DecidableEq κ]

/-- A search for a key, which ends at an empty slot and at a value with a shorter probe length. Without fuel it has not ended. -/
def find (key : α → κ) (home : α → ℕ) (blocks : ℕ → Option α) (size : ℕ) (k : κ) : ℕ → ℕ → ℕ → Option (Option ℕ)
  | 0, _, _ => none
  | fuel + 1, idx, pl =>
    match blocks idx with
    | none => some none
    | some oth =>
      if key oth = k then some (some idx)
      else if probeLength size (home oth) idx < pl then some none
      else find key home blocks size k fuel ((idx + 1) % size) (pl + 1)

/-- The insertion of a value that is carried from slot to slot. -/
def insertAt (key : α → κ) (home : α → ℕ) (size : ℕ) : ℕ → (ℕ → Option α) → ℕ → ℕ → α → Option (ℕ → Option α)
  | 0, _, _, _, _ => none
  | fuel + 1, blocks, idx, pl, block =>
    match blocks idx with
    | none => some (Function.update blocks idx (some block))
    | some oth =>
      if key oth = key block then some (Function.update blocks idx (some block))
      else
        let oth_pl := probeLength size (home oth) idx
        if oth_pl < pl then
          insertAt key home size fuel (Function.update blocks idx (some block)) ((idx + 1) % size) (oth_pl + 1) oth
        else insertAt key home size fuel blocks ((idx + 1) % size) (pl + 1) block

/-- Moving the values behind a slot back, and clearing the last slot of them. -/
def shiftBack (home : α → ℕ) (size : ℕ) : ℕ → (ℕ → Option α) → ℕ → Option (ℕ → Option α)
  | 0, _, _ => none
  | fuel + 1, blocks, idx =>
    let nxt_idx := (idx + 1) % size
    match blocks nxt_idx with
    | none => some (Function.update blocks idx none)
    | some oth =>
      if probeLength size (home oth) nxt_idx = 0 then some (Function.update blocks idx none)
      else shiftBack home size fuel (Function.update blocks idx (some oth)) nxt_idx

end Loops

section ProbeLength
variable {size home idx : ℕ}

theorem probeLength_lt (h : 0 < size) : probeLength size home idx < size := Nat.mod_lt _ h

theorem probeLength_eq (hidx : idx < size) :
    probeLength size home idx = if home % size ≤ idx then idx - home % size else size + idx - home % size := by
  have hhome : home % size < size := Nat.mod_lt _ (by omega)
  unfold probeLength
  split
  · rw [show size + idx - home % size = idx - home % size + size by omega, Nat.add_mod_right, Nat.mod_eq_of_lt (by omega)]
  · rw [Nat.mod_eq_of_lt (by omega)]

theorem next_eq (hidx : idx < size) : (idx + 1) % size = if idx + 1 = size then 0 else idx + 1 := by
  split
  · next h => rw [h, Nat.mod_self]
  · exact Nat.mod_eq_of_lt (by omega)

theorem next_lt (hidx : idx < size) : (idx + 1) % size < size := Nat.mod_lt _ (by omega)

theorem probeLength_home (hsize : 0 < size) : probeLength size home (home % size) = 0 := by
  rw [probeLength_eq (Nat.mod_lt _ hsize)]
  simp

theorem probeLength_next (hidx : idx < size) :
    probeLength size home ((idx + 1) % size) =
      if probeLength size home idx + 1 = size then 0 else probeLength size home idx + 1 := by
  have hhome : home % size < size := Nat.mod_lt _ (by omega)
  rw [probeLength_eq (next_lt hidx), probeLength_eq hidx, next_eq hidx]
  split_ifs <;> omega

theorem home_add_probeLength (hidx : idx < size) : (home % size + probeLength size home idx) % size = idx := by
  have hhome : home % size < size := Nat.mod_lt _ (by omega)
  rw [probeLength_eq hidx]
  split
  · rw [show home % size + (idx - home % size) = idx by omega, Nat.mod_eq_of_lt hidx]
  · rw [show home % size + (size + idx - home % size) = idx + size by omega, Nat.add_mod_right, Nat.mod_eq_of_lt hidx]

theorem next_inj {i j : ℕ} (hi : i < size) (hj : j < size) (h : (i + 1) % size = (j + 1) % size) : i = j := by
  rw [next_eq hi, next_eq hj] at h
  split_ifs at h <;> omega

end ProbeLength

section Order
variable {home : α → ℕ} {size : ℕ} {blocks : ℕ → Option α} {block : α} {idx i : ℕ}

/-- The slot before that of a value which is not at home holds a value that is at most one slot nearer to its home. -/
def Behind (home : α → ℕ) (size : ℕ) (blocks : ℕ → Option α) (idx : ℕ) (block : α) : Prop :=
  0 < probeLength size (home block) idx → ∃ i < size, (i + 1) % size = idx ∧ ∃ oth, blocks i = some oth ∧
    probeLength size (home block) idx ≤ probeLength size (home oth) i + 1

def Ordered (home : α → ℕ) (size : ℕ) (blocks : ℕ → Option α) : Prop :=
  ∀ idx < size, ∀ block, blocks idx = some block → Behind home size blocks idx block

theorem Ordered.way (h : Ordered home size blocks) (hi : i < size) (hb : blocks i = some block) {d j : ℕ}
    (hd : d + j = probeLength size (home block) i) :
    ∃ oth, blocks ((home block % size + j) % size) = some oth ∧
      j ≤ probeLength size (home oth) ((home block % size + j) % size) := by
  induction d generalizing j with
  | zero =>
    obtain rfl : j = probeLength size (home block) i := by omega
    rw [home_add_probeLength hi]
    exact ⟨block, hb, le_rfl⟩
  | succ d ih =>
    obtain ⟨oth, hoth, hle⟩ := ih (show d + (j + 1) = _ by omega)
    have hnext : (home block % size + (j + 1)) % size < size := Nat.mod_lt _ (by omega)
    obtain ⟨i', hi', hsucc, oth', hoth', hle'⟩ := h _ hnext oth hoth (by omega)
    have hprev : (home block % size + j) % size < size := Nat.mod_lt _ (by omega)
    obtain rfl : i' = (home block % size + j) % size := by
      refine next_inj hi' hprev ?_
      rw [hsucc, Nat.mod_add_mod (home block % size + j) size 1]
      rfl
    exact ⟨oth', hoth', by omega⟩

theorem Ordered.probeLength_succ_lt (h : Ordered home size blocks) (hempty : ∃ e < size, blocks e = none) (hi : i < size)
    (hb : blocks i = some block) : probeLength size (home block) i + 1 < size := by
  by_contra hge
  obtain ⟨e, he, hnone⟩ := hempty
  have hlt : probeLength size (home block) i < size := probeLength_lt (by omega)
  have hlt' : probeLength size (home block) e < size := probeLength_lt (by omega)
  obtain ⟨oth, hoth, -⟩ := h.way hi hb
    (show (size - 1 - probeLength size (home block) e) + probeLength size (home block) e = _ by omega)
  rw [home_add_probeLength he, hnone] at hoth
  cases hoth

/-- A slot can be given to a value that is not nearer to its home. -/
theorem Ordered.put (h : Ordered home size blocks) (hidx : idx < size) (hbehind : Behind home size blocks idx block)
    (hpoorer : ∀ oth, blocks idx = some oth → probeLength size (home oth) idx ≤ probeLength size (home block) idx) :
    Ordered home size (Function.update blocks idx (some block)) := by
  intro j hj b hb hpos
  have hsize : 1 < size := by
    have : probeLength size (home b) j < size := probeLength_lt (by omega)
    omega
  by_cases hne : j = idx
  · subst hne
    rw [Function.update_self] at hb
    cases hb
    obtain ⟨i, hi, hnext, oth, hoth, hle⟩ := hbehind hpos
    have hij : i ≠ j := by
      rw [next_eq hi] at hnext
      split_ifs at hnext <;> omega
    exact ⟨i, hi, hnext, oth, by rwa [Function.update_of_ne hij], hle⟩
  · rw [Function.update_of_ne hne] at hb
    obtain ⟨i, hi, hnext, oth, hoth, hle⟩ := h j hj b hb hpos
    by_cases hi' : i = idx
    · subst hi'
      have := hpoorer oth hoth
      exact ⟨i, hi, hnext, block, Function.update_self .., by omega⟩
    · exact ⟨i, hi, hnext, oth, by rwa [Function.update_of_ne hi'], hle⟩

end Order

structure Wf (key : α → κ) (home : α → ℕ) (size : ℕ) (blocks : ℕ → Option α) : Prop where
  ordered : Ordered home size blocks
  unique : ∀ i j a b, i < size → j < size → blocks i = some a → blocks j = some b → key a = key b → i = j

def Holds (size : ℕ) (blocks : ℕ → Option α) (a : α) : Prop := ∃ i < size, blocks i = some a

section Insert
variable {key : α → κ} {home : α → ℕ} {size : ℕ} {blocks : ℕ → Option α} {block : α} {idx : ℕ}

theorem holds_update (hidx : idx < size) (a : α) :
    (Holds size (Function.update blocks idx (some block)) a ∨ blocks idx = some a) ↔ a = block ∨ Holds size blocks a := by
  constructor
  · rintro (⟨i, hi, ha⟩ | ha)
    · by_cases hne : i = idx
      · subst hne
        rw [Function.update_self] at ha
        exact Or.inl (Option.some.inj ha).symm
      · rw [Function.update_of_ne hne] at ha
        exact Or.inr ⟨i, hi, ha⟩
    · exact Or.inr ⟨idx, hidx, ha⟩
  · rintro (rfl | ⟨i, hi, ha⟩)
    · exact Or.inl ⟨idx, hidx, Function.update_self ..⟩
    · by_cases hne : i = idx
      · subst hne
        exact Or.inr ha
      · exact Or.inl ⟨i, hi, by rwa [Function.update_of_ne hne]⟩

theorem unique_update (hw : Wf key home size blocks) (habsent : ∀ a, Holds size blocks a → key a ≠ key block) :
    ∀ i j a b, i < size → j < size → Function.update blocks idx (some block) i = some a →
      Function.update blocks idx (some block) j = some b → key a = key b → i = j := by
  intro i j a b hi hj ha hb hab
  by_cases hi' : i = idx <;> by_cases hj' : j = idx
  · rw [hi', hj']
  · subst hi'
    rw [Function.update_self] at ha
    rw [Function.update_of_ne hj'] at hb
    cases ha
    exact absurd hab.symm (habsent b ⟨j, hj, hb⟩)
  · subst hj'
    rw [Function.update_self] at hb
    rw [Function.update_of_ne hi'] at ha
    cases hb
    exact absurd hab (habsent a ⟨i, hi, ha⟩)
  · rw [Function.update_of_ne hi'] at ha
    rw [Function.update_of_ne hj'] at hb
    exact hw.unique i j a b hi hj ha hb hab

/-- The insertion ends at an empty slot at the latest. -/
theorem insertAt_spec [DecidableEq κ] (hw : Wf key home size blocks) (habsent : ∀ a, Holds size blocks a → key a ≠ key block)
    (hidx : idx < size)
    (hbehind : Behind home size blocks idx block) {fuel e : ℕ} (hempty : blocks ((idx + e) % size) = none) (hfuel : e < fuel) :
    ∃ blocks', insertAt key home size fuel blocks idx (probeLength size (home block) idx) block = some blocks' ∧
      Wf key home size blocks' ∧ ∀ a, Holds size blocks' a ↔ a = block ∨ Holds size blocks a := by
  induction fuel generalizing blocks block idx e with
  | zero => omega
  | succ fuel ih =>
    have hlt : (idx + e) % size < size := Nat.mod_lt _ (by omega)
    unfold insertAt
    cases hslot : blocks idx with
    | none =>
      refine ⟨_, rfl, ⟨hw.ordered.put hidx hbehind (by simp [hslot]), unique_update hw habsent⟩, fun a => ?_⟩
      simpa [hslot] using @holds_update α size blocks block idx hidx a
    | some oth =>
      have hkey : key oth ≠ key block := habsent oth ⟨idx, hidx, hslot⟩
      have hnear : probeLength size (home oth) idx + 1 < size := hw.ordered.probeLength_succ_lt ⟨_, hlt, hempty⟩ hidx hslot
      cases e with
      | zero =>
        rw [Nat.add_zero, Nat.mod_eq_of_lt hidx, hslot] at hempty
        cases hempty
      | succ e =>
        have hnext : ((idx + 1) % size + e) % size = (idx + (e + 1)) % size := by
          rw [Nat.mod_add_mod]
          congr 1
          omega
        simp only [if_neg hkey]
        split
        · next hpl =>
          have hput := hw.ordered.put hidx hbehind (fun oth' hoth' => by
            rw [hslot] at hoth'
            cases hoth'
            exact hpl.le)
          have habsent' : ∀ a, Holds size (Function.update blocks idx (some block)) a → key a ≠ key oth := by
            rintro a ⟨i, hi, ha⟩ hkey'
            by_cases hne : i = idx
            · rw [hne, Function.update_self] at ha
              cases ha
              exact hkey hkey'.symm
            · rw [Function.update_of_ne hne] at ha
              exact hne (hw.unique i idx a oth hi hidx ha hslot hkey')
          have hother : (idx + (e + 1)) % size ≠ idx := by
            intro he
            rw [he, hslot] at hempty
            cases hempty
          have hpl' := @probeLength_next size (home oth) idx hidx
          rw [if_neg (by omega)] at hpl'
          rw [← hpl']
          have hempty' : Function.update blocks idx (some block) (((idx + 1) % size + e) % size) = none := by
            rw [hnext, Function.update_of_ne hother]
            exact hempty
          obtain ⟨blocks', hins, hwf, hholds⟩ := ih ⟨hput, unique_update hw habsent⟩ habsent' (next_lt hidx)
            (fun _ => ⟨idx, hidx, rfl, block, Function.update_self .., by omega⟩) hempty' (by omega)
          refine ⟨blocks', hins, hwf, fun a => ?_⟩
          have hsame := @holds_update α size blocks block idx hidx a
          rw [hslot, Option.some_inj] at hsame
          rw [hholds, ← hsame, or_comm, eq_comm]
        · next hpl =>
          have hnot : ¬probeLength size (home block) idx + 1 = size := by omega
          have hpl' := @probeLength_next size (home block) idx hidx
          rw [if_neg hnot] at hpl'
          rw [← hpl']
          exact ih hw habsent (next_lt hidx) (fun _ => ⟨idx, hidx, rfl, oth, hslot, by omega⟩) (by rw [hnext]; exact hempty)
            (by omega)

end Insert

section Find
variable [DecidableEq κ] {key : α → κ} {home : α → ℕ} {size : ℕ} {blocks : ℕ → Option α} {block : α} {i : ℕ}

theorem find_present (hw : Wf key home size blocks) (hi : i < size) (hb : blocks i = some block) {fuel j : ℕ}
    (hj : j ≤ probeLength size (home block) i) (hfuel : probeLength size (home block) i - j < fuel) :
    find key home blocks size (key block) fuel ((home block % size + j) % size) j = some (some i) := by
  induction fuel generalizing j with
  | zero => omega
  | succ fuel ih =>
    obtain ⟨oth, hoth, hle⟩ := hw.ordered.way hi hb (Nat.sub_add_cancel hj)
    have hlt : (home block % size + j) % size < size := Nat.mod_lt _ (by omega)
    rw [find, hoth]
    by_cases hkey : key oth = key block
    · rw [hw.unique _ i oth block hlt hi hoth hb hkey]
      exact if_pos hkey
    · have hne : j ≠ probeLength size (home block) i := by
        rintro rfl
        rw [home_add_probeLength hi, hb] at hoth
        cases hoth
        exact hkey rfl
      have hnext : ((home block % size + j) % size + 1) % size = (home block % size + (j + 1)) % size := by
        rw [Nat.mod_add_mod (home block % size + j) size 1]
        rfl
      simp only [if_neg hkey, if_neg (Nat.not_lt.mpr hle), hnext]
      exact ih (by omega) (by omega)

theorem find_absent {k : κ} (habsent : ∀ a, Holds size blocks a → key a ≠ k) {fuel e idx pl : ℕ} (hidx : idx < size)
    (hempty : blocks ((idx + e) % size) = none) (hfuel : e < fuel) : find key home blocks size k fuel idx pl = some none := by
  induction fuel generalizing e idx pl with
  | zero => omega
  | succ fuel ih =>
    unfold find
    cases hslot : blocks idx with
    | none => rfl
    | some oth =>
      simp only [if_neg (habsent oth ⟨idx, hidx, hslot⟩)]
      split
      · rfl
      · cases e with
        | zero =>
          rw [Nat.add_zero, Nat.mod_eq_of_lt hidx, hslot] at hempty
          cases hempty
        | succ e =>
          refine @ih e _ _ (next_lt hidx) ?_ (by omega)
          rw [Nat.mod_add_mod, show idx + 1 + e = idx + (e + 1) by omega]
          exact hempty

end Find

section Shift
variable {key : α → κ} {home : α → ℕ} {size : ℕ} {blocks : ℕ → Option α} {x b : α} {idx : ℕ}

theorem Ordered.clear (h : Ordered home size blocks) (hidx : idx < size)
    (hhome : ∀ b, blocks ((idx + 1) % size) = some b → probeLength size (home b) ((idx + 1) % size) = 0) :
    Ordered home size (Function.update blocks idx none) := by
  intro j hj b hb hpos
  have hne : j ≠ idx := by
    rintro rfl
    rw [Function.update_self] at hb
    cases hb
  rw [Function.update_of_ne hne] at hb
  obtain ⟨i, hi, hnext, oth, hoth, hle⟩ := h j hj b hb hpos
  have hi' : i ≠ idx := by
    rintro rfl
    subst hnext
    exact absurd (hhome b hb) (by omega)
  exact ⟨i, hi, hnext, oth, by rwa [Function.update_of_ne hi'], hle⟩

theorem next_ne (hsize : 1 < size) (hidx : idx < size) : (idx + 1) % size ≠ idx := by
  rw [next_eq hidx]
  split <;> omega

/-- A value that is not at home can be copied to the slot before it. -/
theorem Ordered.copyBack (h : Ordered home size blocks) (hidx : idx < size) (hx : blocks idx = some x)
    (hb : blocks ((idx + 1) % size) = some b) (hpos : 0 < probeLength size (home b) ((idx + 1) % size)) :
    Ordered home size (Function.update blocks idx (some b)) := by
  have hpl : probeLength size (home b) ((idx + 1) % size) = probeLength size (home b) idx + 1 := by
    have := @probeLength_next size (home b) idx hidx
    split at this <;> omega
  have hle : probeLength size (home b) idx ≤ probeLength size (home x) idx := by
    obtain ⟨i, hi, hnext, oth, hoth, hle⟩ := h _ (next_lt hidx) b hb hpos
    obtain rfl := next_inj hi hidx hnext
    rw [hx] at hoth
    cases hoth
    omega
  intro j hj c hc hpos'
  have hsize : 1 < size := by
    have : probeLength size (home c) j < size := probeLength_lt (by omega)
    omega
  by_cases hne : j = idx
  · subst hne
    rw [Function.update_self] at hc
    cases hc
    obtain ⟨i, hi, hnext, oth, hoth, hle'⟩ := h j hj x hx (by omega)
    have hij : i ≠ j := by
      rintro rfl
      exact next_ne hsize hi hnext
    exact ⟨i, hi, hnext, oth, by rwa [Function.update_of_ne hij], by omega⟩
  · rw [Function.update_of_ne hne] at hc
    obtain ⟨i, hi, hnext, oth, hoth, hle'⟩ := h j hj c hc hpos'
    by_cases hi' : i = idx
    · subst hi'
      subst hnext
      rw [hb] at hc
      cases hc
      exact ⟨i, hi, rfl, b, Function.update_self .., by omega⟩
    · exact ⟨i, hi, hnext, oth, by rwa [Function.update_of_ne hi'], hle'⟩

def Besides (size : ℕ) (blocks : ℕ → Option α) (idx : ℕ) (a : α) : Prop := ∃ j < size, j ≠ idx ∧ blocks j = some a

def Ahead (size : ℕ) (blocks : ℕ → Option α) (first idx : ℕ) (a : α) : Prop :=
  ∃ j < size, first ≤ j ∧ j ≠ idx ∧ blocks j = some a

theorem besides_copyBack (hsize : 1 < size) (hidx : idx < size) (hb : blocks ((idx + 1) % size) = some b) (a : α) :
    Besides size (Function.update blocks idx (some b)) ((idx + 1) % size) a ↔ Besides size blocks idx a := by
  constructor
  · rintro ⟨j, hj, hne, ha⟩
    by_cases hj' : j = idx
    · subst hj'
      rw [Function.update_self] at ha
      cases ha
      exact ⟨_, next_lt hj, next_ne hsize hj, hb⟩
    · rw [Function.update_of_ne hj'] at ha
      exact ⟨j, hj, hj', ha⟩
  · rintro ⟨j, hj, hne, ha⟩
    by_cases hj' : j = (idx + 1) % size
    · subst hj'
      rw [hb] at ha
      cases ha
      exact ⟨idx, hidx, (next_ne hsize hidx).symm, Function.update_self ..⟩
    · exact ⟨j, hj, hj', by rwa [Function.update_of_ne hne]⟩

theorem unique_copyBack (hsize : 1 < size) (hidx : idx < size) (hb : blocks ((idx + 1) % size) = some b)
    (hunique : ∀ i j a c, i < size → j < size → i ≠ idx → j ≠ idx → blocks i = some a → blocks j = some c →
      key a = key c → i = j) :
    ∀ i j a c, i < size → j < size → i ≠ (idx + 1) % size → j ≠ (idx + 1) % size → Function.update blocks idx (some b) i =
      some a → Function.update blocks idx (some b) j = some c → key a = key c → i = j := by
  intro i j a c hi hj hi' hj' ha hc hkey
  have hne := next_ne hsize hidx
  by_cases hia : i = idx <;> by_cases hja : j = idx
  · rw [hia, hja]
  · rw [hia, Function.update_self] at ha
    rw [Function.update_of_ne hja] at hc
    cases ha
    exact absurd (hunique _ j b c (next_lt hidx) hj hne hja hb hc hkey).symm hj'
  · rw [hja, Function.update_self] at hc
    rw [Function.update_of_ne hia] at ha
    cases hc
    exact absurd (hunique i _ a b hi (next_lt hidx) hia hne ha hb hkey) hi'
  · rw [Function.update_of_ne hia] at ha
    rw [Function.update_of_ne hja] at hc
    exact hunique i j a c hi hj hia hja ha hc hkey

/-- A value ahead of the loop stays ahead of it, if the slot behind is not the one at which the loop is. -/
theorem ahead_copyBack {first : ℕ} {a : α} (hsize : 1 < size) (hidx : idx < size) (hb : blocks ((idx + 1) % size) = some b)
    (hback : (idx + 1) % size ≠ first) (ha : Ahead size blocks first idx a) :
    Ahead size (Function.update blocks idx (some b)) first ((idx + 1) % size) a := by
  obtain ⟨j, hj, hfirst, hne, ha⟩ := ha
  by_cases hj' : j = (idx + 1) % size
  · subst hj'
    rw [hb] at ha
    cases ha
    refine ⟨idx, hidx, ?_, (next_ne hsize hidx).symm, Function.update_self ..⟩
    rw [next_eq hidx] at hback hfirst
    split_ifs at hback hfirst <;> omega
  · exact ⟨j, hj, hfirst, hj', by rwa [Function.update_of_ne hne]⟩

theorem wf_clear (hord : Ordered home size blocks) (hidx : idx < size)
    (hunique : ∀ i j a c, i < size → j < size → i ≠ idx → j ≠ idx → blocks i = some a → blocks j = some c → key a = key c → i = j)
    (hhome : ∀ b, blocks ((idx + 1) % size) = some b → probeLength size (home b) ((idx + 1) % size) = 0) :
    Wf key home size (Function.update blocks idx none) := by
  refine ⟨hord.clear hidx hhome, fun i j a c hi hj ha hc hkey => ?_⟩
  have hne : ∀ {i a}, Function.update blocks idx none i = some a → i ≠ idx := by
    rintro i a ha rfl
    rw [Function.update_self] at ha
    cases ha
  have hi' := hne ha
  have hj' := hne hc
  rw [Function.update_of_ne hi'] at ha
  rw [Function.update_of_ne hj'] at hc
  exact hunique i j a c hi hj hi' hj' ha hc hkey

theorem clear_eq_some {j : ℕ} {a : α} : Function.update blocks idx none j = some a ↔ j ≠ idx ∧ blocks j = some a := by
  by_cases hj : j = idx
  · simp [hj]
  · simp [hj]

/-- The shift goes on to an empty slot at the latest, so that it does not come back to where it has started. The value of the slot
at which it is does not count. -/
theorem shiftBack_spec {first k d fuel : ℕ} (hord : Ordered home size blocks) (hidx : idx < size) (hx : blocks idx = some x)
    (hunique : ∀ i j a c, i < size → j < size → i ≠ idx → j ≠ idx → blocks i = some a → blocks j = some c → key a = key c → i = j)
    (hfirst : first < size) (hd : d < size) (hk : idx = (first + k) % size) (hkd : k ≤ d)
    (hempty : blocks ((first + d) % size) = none) (hfuel : d - k < fuel) :
    ∃ blocks', shiftBack home size fuel blocks idx = some blocks' ∧ Wf key home size blocks' ∧
      (∀ a, Holds size blocks' a ↔ Besides size blocks idx a) ∧
      ∀ a, Ahead size blocks first idx a → ∃ j < size, first ≤ j ∧ blocks' j = some a := by
  induction fuel generalizing blocks x idx k with
  | zero => omega
  | succ fuel ih =>
    have hstop : (∀ b, blocks ((idx + 1) % size) = some b → probeLength size (home b) ((idx + 1) % size) = 0) →
        Wf key home size (Function.update blocks idx none) ∧
        (∀ a, Holds size (Function.update blocks idx none) a ↔ Besides size blocks idx a) ∧
        ∀ a, Ahead size blocks first idx a → ∃ j < size, first ≤ j ∧ Function.update blocks idx none j = some a := by
      intro hhome
      refine ⟨wf_clear hord hidx hunique hhome, fun a => ?_, ?_⟩
      · simp only [Holds, Besides, clear_eq_some]
      · rintro a ⟨j, hj, hle, hne, ha⟩
        exact ⟨j, hj, hle, clear_eq_some.mpr ⟨hne, ha⟩⟩
    cases hnxt : blocks ((idx + 1) % size) with
    | none =>
      refine ⟨Function.update blocks idx none, ?_, hstop (by simp [hnxt])⟩
      simp only [shiftBack, hnxt]
    | some b =>
      simp only [shiftBack, hnxt]
      split
      · next hzero =>
        refine ⟨_, rfl, hstop fun c hc => ?_⟩
        rw [hnxt] at hc
        cases hc
        exact hzero
      · next hpos =>
        have hsize : 1 < size := by
          have : probeLength size (home b) ((idx + 1) % size) < size := probeLength_lt (by omega)
          omega
        have hlt : k < d := by
          rcases Nat.lt_or_ge k d with h | h
          · exact h
          · obtain rfl : k = d := by omega
            rw [← hk, hx] at hempty
            cases hempty
        have hk' : (idx + 1) % size = (first + (k + 1)) % size := by
          rw [hk, Nat.mod_add_mod]
          rfl
        have hback : (idx + 1) % size ≠ first := by
          rw [hk']
          intro he
          rw [← Nat.mod_eq_of_lt hfirst] at he
          have := Nat.ModEq.add_left_cancel' first (show first + (k + 1) ≡ first + 0 [MOD size] by simpa [Nat.ModEq] using he)
          rw [Nat.ModEq, Nat.mod_eq_of_lt (by omega), Nat.zero_mod] at this
          omega
        have hempty' : Function.update blocks idx (some b) ((first + d) % size) = none := by
          rw [Function.update_of_ne]
          · exact hempty
          · intro he
            rw [he, hx] at hempty
            cases hempty
        obtain ⟨blocks', hshift, hwf, hholds, hahead⟩ := ih (hord.copyBack hidx hx hnxt (Nat.pos_of_ne_zero hpos)) (next_lt hidx)
          (by rw [Function.update_of_ne (next_ne hsize hidx)]; exact hnxt) (unique_copyBack hsize hidx hnxt hunique) hk' hlt
          hempty' (by omega)
        refine ⟨blocks', hshift, hwf, fun a => ?_, fun a ha => ?_⟩
        · rw [hholds, besides_copyBack hsize hidx hnxt]
        · exact hahead a (ahead_copyBack hsize hidx hnxt hback ha)

end Shift

section Table
variable {key : α → κ} {home : α → ℕ} {size : ℕ} {blocks : ℕ → Option α}

theorem wf_empty : Wf key home size (fun _ : ℕ => (none : Option α)) :=
  ⟨fun _ _ _ h => (nomatch h), fun _ _ _ _ _ _ h => (nomatch h)⟩

theorem Wf.exists_empty (hw : Wf key home size blocks) {K : Finset κ} (hK : ∀ a, Holds size blocks a → key a ∈ K)
    (hcard : K.card < size) : ∃ e < size, blocks e = none := by
  classical
  by_contra hno
  push Not at hno
  have hsome : ∀ i : Fin size, ∃ a, blocks i = some a := fun i => Option.ne_none_iff_exists'.mp (hno i i.isLt)
  choose f hf using hsome
  have hinj : Function.Injective fun i => key (f i) := fun i j hij =>
    Fin.ext (hw.unique i j (f i) (f j) i.isLt j.isLt (hf i) (hf j) hij)
  have hle : (Finset.univ.image fun i => key (f i)).card ≤ K.card := Finset.card_le_card fun k hk => by
    obtain ⟨i, -, rfl⟩ := Finset.mem_image.mp hk
    exact hK _ ⟨i, i.isLt, hf i⟩
  rw [Finset.card_image_of_injective _ hinj, Finset.card_fin] at hle
  omega

theorem Wf.insert [DecidableEq κ] {block : α} (hw : Wf key home size blocks)
    (habsent : ∀ a, Holds size blocks a → key a ≠ key block) (hempty : ∃ e < size, blocks e = none) :
    ∃ blocks', insertAt key home size size blocks (home block % size) 0 block = some blocks' ∧ Wf key home size blocks' ∧
      ∀ a, Holds size blocks' a ↔ a = block ∨ Holds size blocks a := by
  obtain ⟨e, he, hnone⟩ := hempty
  have hpos : 0 < size := by omega
  obtain ⟨d, hd, rfl⟩ := LinearProbe.exists_offset (Nat.mod_lt (home block) hpos) he
  have hzero : probeLength size (home block) (home block % size) = 0 := probeLength_home hpos
  have hins := insertAt_spec hw habsent (Nat.mod_lt _ hpos) (fun h => absurd hzero (by omega)) hnone hd
  rwa [hzero] at hins

theorem Wf.find [DecidableEq κ] (hw : Wf key home size blocks) (hempty : ∃ e < size, blocks e = none) {k : κ} {h : ℕ}
    (hhome : ∀ a, key a = k → home a = h) :
    (∃ i a, i < size ∧ blocks i = some a ∧ key a = k ∧ find key home blocks size k size (h % size) 0 = some (some i)) ∨
      (∀ a, Holds size blocks a → key a ≠ k) ∧ find key home blocks size k size (h % size) 0 = some none := by
  obtain ⟨e, he, hnone⟩ := hempty
  have hpos : 0 < size := by omega
  by_cases hex : ∃ a, Holds size blocks a ∧ key a = k
  · obtain ⟨a, ⟨i, hi, ha⟩, rfl⟩ := hex
    refine Or.inl ⟨i, a, hi, ha, rfl, ?_⟩
    have hfind := find_present hw hi ha (Nat.zero_le _) (show probeLength size (home a) i - 0 < size from probeLength_lt hpos)
    rwa [Nat.add_zero, Nat.mod_mod, hhome a rfl] at hfind
  · have habsent : ∀ a, Holds size blocks a → key a ≠ k := fun a ha hk => hex ⟨a, ha, hk⟩
    obtain ⟨d, hd, rfl⟩ := LinearProbe.exists_offset (Nat.mod_lt h hpos) he
    exact Or.inr ⟨habsent, find_absent habsent (Nat.mod_lt _ hpos) hnone hd⟩

/-- A removed value is the only one that is missing then, and a loop over the table has all others still ahead that it has not
passed. -/
theorem Wf.remove {i : ℕ} {x : α} (hw : Wf key home size blocks) (hempty : ∃ e < size, blocks e = none) (hi : i < size)
    (hx : blocks i = some x) :
    ∃ blocks', shiftBack home size size blocks i = some blocks' ∧ Wf key home size blocks' ∧
      (∀ a, Holds size blocks' a ↔ Holds size blocks a ∧ key a ≠ key x) ∧
      ∀ j a, i < j → j < size → blocks j = some a → ∃ j' < size, i ≤ j' ∧ blocks' j' = some a := by
  obtain ⟨e, he, hnone⟩ := hempty
  obtain ⟨d, hd, rfl⟩ := LinearProbe.exists_offset hi he
  obtain ⟨blocks', hshift, hwf, hholds, hahead⟩ := @shiftBack_spec α κ key home size blocks x i i 0 d size hw.ordered hi hx
    (fun i j a c hi hj _ _ => hw.unique i j a c hi hj) hi hd (by rw [Nat.add_zero, Nat.mod_eq_of_lt hi]) (Nat.zero_le d) hnone
    (by omega)
  refine ⟨blocks', hshift, hwf, fun a => ?_, fun j a hij hj ha => hahead a ⟨j, hj, hij.le, by omega, ha⟩⟩
  rw [hholds]
  constructor
  · rintro ⟨j, hj, hne, ha⟩
    exact ⟨⟨j, hj, ha⟩, fun hkey => hne (hw.unique j i a x hj hi ha hx hkey)⟩
  · rintro ⟨⟨j, hj, ha⟩, hkey⟩
    refine ⟨j, hj, ?_, ha⟩
    rintro rfl
    rw [hx] at ha
    cases ha
    exact hkey rfl

/-- A value may be replaced by another one with its key and home. -/
theorem Wf.replace {i : ℕ} {x y : α} (hw : Wf key home size blocks) (hi : i < size) (hx : blocks i = some x)
    (hkey : key y = key x) (hhome : home y = home x) :
    Wf key home size (Function.update blocks i (some y)) ∧
      ∀ a, Holds size (Function.update blocks i (some y)) a ↔ a = y ∨ Holds size blocks a ∧ key a ≠ key x := by
  have hbehind : Behind home size blocks i y := by
    unfold Behind
    rw [hhome]
    exact hw.ordered i hi x hx
  have hput := hw.ordered.put hi hbehind (fun oth hoth => by
    rw [hx] at hoth
    cases hoth
    rw [hhome])
  have hslot : ∀ {j a}, Function.update blocks i (some y) j = some a → ∃ b, blocks j = some b ∧ key b = key a := by
    intro j a ha
    by_cases hj : j = i
    · rw [hj, Function.update_self] at ha
      cases ha
      exact ⟨x, hj ▸ hx, hkey.symm⟩
    · rw [Function.update_of_ne hj] at ha
      exact ⟨a, ha, rfl⟩
  refine ⟨⟨hput, fun j l a c hj hl ha hc hac => ?_⟩, fun a => ⟨?_, ?_⟩⟩
  · obtain ⟨a', ha', hka⟩ := hslot ha
    obtain ⟨c', hc', hkc⟩ := hslot hc
    exact hw.unique j l a' c' hj hl ha' hc' (by rw [hka, hkc, hac])
  · rintro ⟨j, hj, ha⟩
    by_cases hne : j = i
    · rw [hne, Function.update_self] at ha
      exact Or.inl (Option.some.inj ha).symm
    · rw [Function.update_of_ne hne] at ha
      exact Or.inr ⟨⟨j, hj, ha⟩, fun hk => hne (hw.unique j i a x hj hi ha hx hk)⟩
  · rintro (rfl | ⟨⟨j, hj, ha⟩, hk⟩)
    · exact ⟨i, hi, Function.update_self ..⟩
    · refine ⟨j, hj, ?_⟩
      rw [Function.update_of_ne]
      · exact ha
      · rintro rfl
        rw [hx] at ha
        cases ha
        exact hk rfl

end Table

end SomeOs.RobinHood
