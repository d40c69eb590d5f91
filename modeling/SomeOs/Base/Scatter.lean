import SomeOs.Base.ByteStore

/-! # Buffers in parts

A buffer whose bytes lie at scattered places of a store is given by a list of parts, each of
consecutive bytes. Two such buffers are copied by walking along both lists, and one is filled
part by part. An array of parts may have elements that were never written.
-/
namespace SomeOs.Scatter
open ByteStore

structure Part where
  address : ℕ
  offset : ℕ
  length : ℕ
  deriving DecidableEq

/-- The parts follow each other from `cur` to `stop`, and hold the bytes of the buffer at their places. -/
def Cut (place : ℕ → ℕ) : ℕ → List Part → ℕ → Prop
  | cur, [], stop => cur = stop
  | cur, p :: ps, stop => p.offset = cur ∧ 0 < p.length ∧ (∀ k < p.length, place (cur + k) = p.address + k) ∧
      Cut place (cur + p.length) ps stop

/-- The bytes from `lo` to `hi` were copied between the places of two buffers, and no others changed. -/
structure Copied (dest src : ℕ → ℕ) (lo hi : ℕ) (s t : Store) : Prop where
  inside : ∀ i, lo ≤ i → i < hi → t (dest i) = s (src i)
  outside : ∀ a, (∀ i, lo ≤ i → i < hi → a ≠ dest i) → t a = s a

/-- No byte of the destination is a byte of the source or another byte of the destination. -/
structure Apart (dest src : ℕ → ℕ) (n : ℕ) : Prop where
  inj : ∀ i j, i < n → j < n → dest i = dest j → i = j
  disjoint : ∀ i j, i < n → j < n → dest i ≠ src j

/-- The first `len` of `n` bytes have the property, and a byte after them does not. -/
structure Extent (P : ℕ → Prop) (n len : ℕ) : Prop where
  le : len ≤ n
  all : ∀ i < len, P i
  ends : len = n ∨ ¬P len

theorem Extent.and {P Q : ℕ → Prop} {n len len' : ℕ} (h : Extent P n len) (h' : Extent Q n len') :
    Extent (fun i => P i ∧ Q i) n (min len len') where
  le := by
    have := h.le
    omega
  all i hi := ⟨h.all i (by omega), h'.all i (by omega)⟩
  ends := by
    rcases Nat.le_total len len' with hle | hle
    · rw [min_eq_left hle]
      rcases h.ends with hend | hend
      · exact Or.inl hend
      · exact Or.inr fun hboth => hend hboth.1
    · rw [min_eq_right hle]
      rcases h'.ends with hend | hend
      · exact Or.inl hend
      · exact Or.inr fun hboth => hend hboth.2

section Cut
variable {place dest src : ℕ → ℕ} {cur stop lo mid hi n : ℕ} {p : Part} {ps : List Part} {s t u : Store}

theorem Cut.le (h : Cut place cur ps stop) : cur ≤ stop := by
  induction ps generalizing cur with
  | nil => exact h.le
  | cons p ps ih =>
    have := ih h.2.2.2
    omega

theorem Cut.sum (h : Cut place cur ps stop) : cur + (ps.map Part.length).sum = stop := by
  induction ps generalizing cur with
  | nil => exact h
  | cons p ps ih =>
    have := ih h.2.2.2
    rw [List.map_cons, List.sum_cons]
    omega

theorem Cut.at {before after : List Part} (h : Cut place cur (before ++ p :: after) stop) :
    p.offset = cur + (before.map Part.length).sum ∧ ∀ k < p.length, place (p.offset + k) = p.address + k := by
  induction before generalizing cur with
  | nil =>
    obtain ⟨hoff, -, hplace, -⟩ := h
    rw [hoff]
    exact ⟨rfl, hplace⟩
  | cons q before ih =>
    obtain ⟨hoff, hplace⟩ := ih h.2.2.2
    refine ⟨?_, hplace⟩
    rw [hoff, List.map_cons, List.sum_cons, Nat.add_assoc]

theorem Cut.congr {place' : ℕ → ℕ} (h : Cut place cur ps stop) (heq : ∀ i, cur ≤ i → i < stop → place i = place' i) :
    Cut place' cur ps stop := by
  induction ps generalizing cur with
  | nil => exact h
  | cons p ps ih =>
    obtain ⟨hoff, hpos, hplace, hrest⟩ := h
    have hstop := hrest.le
    refine ⟨hoff, hpos, fun k hk => ?_, ih hrest fun i hi hlt => heq i (by omega) hlt⟩
    rw [← heq _ (by omega) (by omega)]
    exact hplace k hk

/-- A range of the length has a byte that does not follow the one before it. -/
def Broken (place : ℕ → ℕ) (cur stop n : ℕ) : Prop :=
  ∀ i, cur ≤ i → i + n ≤ stop → ∃ k, i < k ∧ k < i + n ∧ place k ≠ place (k - 1) + 1

/-- Parts that are as long as they can be are shorter than a length exactly when no range of the length is one piece. -/
theorem Cut.lengths_lt_iff (h : Cut place cur ps stop) (hm : ps.IsChain fun p q => q.address ≠ p.address + p.length)
    (hn : 0 < n) : (∀ p ∈ ps, p.length < n) ↔ Broken place cur stop n := by
  induction ps generalizing cur with
  | nil =>
    have heq : cur = stop := h
    refine iff_of_true (fun p hp => absurd hp (List.not_mem_nil)) fun i hi hle => ?_
    omega
  | cons p ps ih =>
    obtain ⟨hoff, hpos, hplace, hrest⟩ := h
    have hstop := hrest.le
    obtain ⟨hnext, hm'⟩ := List.isChain_cons.mp hm
    rw [List.forall_mem_cons, ih hrest hm']
    constructor
    · rintro ⟨hlt, hbroken⟩ i hi hle
      rcases Nat.lt_or_ge i (cur + p.length) with hin | hout
      · refine ⟨cur + p.length, hin, by omega, ?_⟩
        cases ps with
        | nil =>
          have heq : cur + p.length = stop := hrest
          omega
        | cons q qs =>
          obtain ⟨-, hqpos, hqplace, -⟩ := hrest
          have hq := hqplace 0 hqpos
          have hp := hplace (p.length - 1) (by omega)
          have hne := hnext q rfl
          rw [Nat.add_zero, Nat.add_zero] at hq
          rw [hq, show cur + p.length - 1 = cur + (p.length - 1) by omega, hp]
          omega
      · exact hbroken i hout hle
    · intro hbroken
      refine ⟨?_, fun i hi hle => hbroken i (by omega) hle⟩
      by_contra hge
      obtain ⟨k, hk, hk', hne⟩ := hbroken cur (le_refl cur) (by omega)
      have h₁ := hplace (k - cur) (by omega)
      have h₂ := hplace (k - 1 - cur) (by omega)
      rw [Nat.add_sub_cancel' (by omega)] at h₁ h₂
      omega

/-- The number of pieces of a range: one more than the bytes in it that do not follow the byte before them. -/
def pieces (place : ℕ → ℕ) (cur stop : ℕ) : ℕ :=
  if cur < stop then ((Finset.Ioo cur stop).filter fun i => place i ≠ place (i - 1) + 1).card + 1 else 0

/-- Parts that are as long as they can be are as many as the pieces of the range. -/
theorem Cut.length_eq (h : Cut place cur ps stop) (hm : ps.IsChain fun p q => q.address ≠ p.address + p.length) :
    ps.length = pieces place cur stop := by
  induction ps generalizing cur with
  | nil =>
    have heq : cur = stop := h
    rw [pieces, if_neg (by omega)]
    rfl
  | cons p ps ih =>
    obtain ⟨hoff, hpos, hplace, hrest⟩ := h
    have hstop := hrest.le
    obtain ⟨hnext, hm'⟩ := List.isChain_cons.mp hm
    have hinside : ∀ i, cur < i → i < cur + p.length → place i = place (i - 1) + 1 := by
      intro i hi hlt
      have h₁ := hplace (i - cur) (by omega)
      have h₂ := hplace (i - 1 - cur) (by omega)
      rw [Nat.add_sub_cancel' (by omega)] at h₁ h₂
      omega
    rw [List.length_cons, ih hrest hm', pieces, pieces, if_pos (show cur < stop by omega)]
    cases ps with
    | nil =>
      have heq : cur + p.length = stop := hrest
      rw [if_neg (by omega), Finset.filter_eq_empty_iff.mpr, Finset.card_empty]
      intro i hi hne
      rw [Finset.mem_Ioo] at hi
      exact hne (hinside i hi.1 (by omega))
    | cons q qs =>
      obtain ⟨-, hqpos, hqplace, hqrest⟩ := hrest
      have hqstop := hqrest.le
      have hbreak : place (cur + p.length) ≠ place (cur + p.length - 1) + 1 := by
        have hq := hqplace 0 hqpos
        have hp := hplace (p.length - 1) (by omega)
        have hne := hnext q rfl
        rw [Nat.add_zero, Nat.add_zero] at hq
        rw [hq, show cur + p.length - 1 = cur + (p.length - 1) by omega, hp]
        omega
      have hsplit : (Finset.Ioo cur stop).filter (fun i => place i ≠ place (i - 1) + 1) =
          insert (cur + p.length) ((Finset.Ioo (cur + p.length) stop).filter fun i => place i ≠ place (i - 1) + 1) := by
        ext i
        simp only [Finset.mem_filter, Finset.mem_insert, Finset.mem_Ioo]
        constructor
        · rintro ⟨⟨hi, hlt⟩, hne⟩
          have hge : cur + p.length ≤ i := by
            by_contra hin
            exact hne (hinside i hi (by omega))
          rcases Nat.eq_or_lt_of_le hge with heq | hgt
          · exact Or.inl heq.symm
          · exact Or.inr ⟨⟨hgt, hlt⟩, hne⟩
        · rintro (rfl | ⟨⟨hi, hlt⟩, hne⟩)
          · exact ⟨⟨by omega, by omega⟩, hbreak⟩
          · exact ⟨⟨by omega, hlt⟩, hne⟩
      rw [if_pos (by omega), hsplit, Finset.card_insert_of_notMem (by simp)]

theorem Copied.refl (dest src : ℕ → ℕ) (lo : ℕ) (s : Store) : Copied dest src lo lo s s where
  inside i h1 h2 := absurd h2 (by omega)
  outside _ _ := rfl

theorem Copied.trans (h : Copied dest src lo mid s t) (h' : Copied dest src mid hi t u) (hlo : lo ≤ mid)
    (hhi : mid ≤ hi) (ha : Apart dest src n) (hn : hi ≤ n) : Copied dest src lo hi s u where
  inside i h1 h2 := by
    by_cases hi' : i < mid
    · rw [h'.outside, h.inside i h1 hi']
      intro j hj1 hj2 heq
      have := ha.inj i j (by omega) (by omega) heq
      omega
    · rw [h'.inside i (by omega) h2, h.outside]
      intro j _ hj2
      exact Ne.symm (ha.disjoint j i (by omega) (by omega))
  outside a hne := by
    rw [h'.outside a fun i h1 h2 => hne i (by omega) h2, h.outside a fun i h1 h2 => hne i h1 (by omega)]

theorem copied_memmove {d c : ℕ} (hd : ∀ k < n, dest (lo + k) = d + k) (hc : ∀ k < n, src (lo + k) = c + k) :
    Copied dest src lo (lo + n) s (memmove s d c n) where
  inside i h1 h2 := by
    obtain ⟨k, rfl⟩ := Nat.exists_eq_add_of_le h1
    rw [hd k (by omega), hc k (by omega)]
    exact memmove_inside (by omega)
  outside a hne := by
    apply memmove_outside
    by_contra hno
    have hk := hd (a - d) (by omega)
    exact hne (lo + (a - d)) (by omega) (by omega) (by omega)

end Cut

/-- The loop over the parts of both buffers, of which `n` bytes are copied. It has no result when it uses
an element that was never written. -/
def copyParts (n : ℕ) : ℕ → List (Option Part) → List (Option Part) → ℕ → Store → Option Store
  | 0, _, _, _, s => some s
  | fuel + 1, dest, src, index, s =>
    if index < n then
      match dest, src with
      | [], _ => some s
      | _, [] => some s
      | some d :: ds, some c :: cs =>
        let destNext := d.offset + d.length
        let srcNext := c.offset + c.length
        if destNext < srcNext then
          copyParts n fuel ds (some c :: cs) destNext
            (memmove s (d.address + (index - d.offset)) (c.address + (index - c.offset)) (destNext - index))
        else
          copyParts n fuel (some d :: ds) cs srcNext
            (memmove s (d.address + (index - d.offset)) (c.address + (index - c.offset)) (srcNext - index))
      | _, _ => none
    else some s

def setParts (byte : UInt8) : List (Option Part) → Store → Option Store
  | [], s => some s
  | none :: _, _ => none
  | some p :: ps, s => setParts byte ps (write s p.address (List.replicate p.length byte))

/-- The first part of a list that is used from `index` on. -/
def CutFrom (place : ℕ → ℕ) (index : ℕ) : List Part → ℕ → Prop
  | [], stop => index = stop
  | p :: ps, stop => p.offset ≤ index ∧ index ≤ p.offset + p.length ∧ Cut place p.offset (p :: ps) stop

section Loops
variable {place dest src : ℕ → ℕ} {index stop : ℕ} {ps ds cs : List Part} {s : Store}

theorem Cut.from (h : Cut place index ps stop) : CutFrom place index ps stop := by
  cases ps with
  | nil => exact h
  | cons p ps =>
    obtain ⟨hoff, hrest⟩ := h
    refine ⟨by omega, by omega, rfl, ?_⟩
    rw [hoff]
    exact hrest

theorem CutFrom.le (h : CutFrom place index ps stop) : index ≤ stop := by
  cases ps with
  | nil => exact h.le
  | cons p ps =>
    obtain ⟨-, hle, -, -, -, hrest⟩ := h
    exact hle.trans hrest.le

theorem CutFrom.place_eq {p : Part} (h : CutFrom place index (p :: ps) stop) {k : ℕ}
    (hk : index + k < p.offset + p.length) : place (index + k) = p.address + (index - p.offset) + k := by
  obtain ⟨hle, -, -, -, hplace, -⟩ := h
  have := hplace (index + k - p.offset) (by omega)
  rw [show p.offset + (index + k - p.offset) = index + k by omega] at this
  omega

theorem CutFrom.next {p : Part} (h : CutFrom place index (p :: ps) stop) :
    CutFrom place (p.offset + p.length) ps stop := h.2.2.2.2.2.from

theorem Cut.unused (h : Cut place index ps stop) : ∀ p ∈ ps.head?, index < p.offset + p.length := by
  intro p hp
  cases ps with
  | nil => cases hp
  | cons q ps =>
    cases hp
    obtain ⟨hoff, hpos, -⟩ := h
    omega

/-- The bytes up to the end of the shorter buffer are copied. What follows the parts of the destination is
not used when the source ends first. -/
theorem copyParts_copied {n fuel destStop srcStop : ℕ} {rest : List (Option Part)}
    (ha : Apart dest src (min destStop srcStop)) (hdn : destStop ≤ n) (hsn : srcStop ≤ n) (hrest : rest = [] ∨ srcStop ≤ destStop)
    (hfuel : ds.length + cs.length ≤ fuel) (hd : CutFrom dest index ds destStop) (hc : CutFrom src index cs srcStop)
    (hleft : ∀ c ∈ cs.head?, index < c.offset + c.length) :
    ∃ t, copyParts n fuel (ds.map some ++ rest) (cs.map some) index s = some t ∧
      Copied dest src index (min destStop srcStop) s t := by
  induction fuel generalizing ds cs index s with
  | zero =>
    obtain rfl : ds = [] := List.length_eq_zero_iff.mp (by omega)
    obtain rfl : index = destStop := hd
    rw [min_eq_left hc.le]
    exact ⟨s, rfl, Copied.refl dest src index s⟩
  | succ fuel ih =>
    have hdle := hd.le
    have hcle := hc.le
    unfold copyParts
    split_ifs with hlt
    · cases cs with
      | nil =>
        obtain rfl : index = srcStop := hc
        rw [min_eq_right hdle]
        cases ds.map some ++ rest <;> exact ⟨s, rfl, Copied.refl dest src index s⟩
      | cons c cs =>
        have hcnext := hc.2.2.2.2.2
        have hcstop := hcnext.le
        have hc1 := hc.1
        have hc2 := hleft c rfl
        cases ds with
        | nil =>
          obtain rfl : index = destStop := hd
          rcases hrest with rfl | hrest
          · rw [min_eq_left hcle]
            exact ⟨s, rfl, Copied.refl dest src index s⟩
          · omega
        | cons d ds =>
          simp only [List.length_cons] at hfuel
          have hdnext := hd.next
          have hd1 := hd.1
          have hd2 := hd.2.1
          have hdstop := hdnext.le
          simp only [List.map_cons, List.cons_append]
          split_ifs with hnext
          · obtain ⟨len, hlen⟩ := Nat.exists_eq_add_of_le hd2
            have hmove : Copied dest src index (index + len) s _ :=
              copied_memmove (fun k hk => hd.place_eq (by omega)) (fun k hk => hc.place_eq (by omega))
            have hc' : CutFrom src (d.offset + d.length) (c :: cs) srcStop := ⟨by omega, by omega, hc.2.2⟩
            obtain ⟨t, ht, hcopy⟩ :=
              ih (s := memmove s (d.address + (index - d.offset)) (c.address + (index - c.offset)) len)
                (by simp only [List.length_cons]; omega) hdnext hc' (fun p hp => by cases hp; exact hnext)
            rw [hlen] at ht hcopy
            rw [hlen, Nat.add_sub_cancel_left]
            exact ⟨t, ht, hmove.trans hcopy (by omega) (by omega) ha (le_refl _)⟩
          · obtain ⟨len, hlen⟩ := Nat.exists_eq_add_of_le hc2.le
            have hmove : Copied dest src index (index + len) s _ :=
              copied_memmove (fun k hk => hd.place_eq (by omega)) (fun k hk => hc.place_eq (by omega))
            have hd' : CutFrom dest (c.offset + c.length) (d :: ds) destStop := ⟨by omega, by omega, hd.2.2⟩
            obtain ⟨t, ht, hcopy⟩ :=
              ih (s := memmove s (d.address + (index - d.offset)) (c.address + (index - c.offset)) len)
                (by simp only [List.length_cons]; omega) hd' hcnext.from hcnext.unused
            rw [hlen] at ht hcopy
            rw [hlen, Nat.add_sub_cancel_left]
            exact ⟨t, ht, hmove.trans hcopy (by omega) (by omega) ha (le_refl _)⟩
    · have hmin : min destStop srcStop = index := by omega
      rw [hmin]
      exact ⟨s, rfl, Copied.refl dest src index s⟩

/-- When the source is longer, the element after the parts of the destination is used. -/
theorem copyParts_unfilled {n fuel destStop srcStop : ℕ} (hsn : srcStop ≤ n) (hlong : destStop < srcStop)
    (hfuel : ds.length + cs.length < fuel) (hd : CutFrom dest index ds destStop) (hc : CutFrom src index cs srcStop)
    (rest : List (Option Part)) : copyParts n fuel (ds.map some ++ none :: rest) (cs.map some) index s = none := by
  induction fuel generalizing ds cs index s with
  | zero => omega
  | succ fuel ih =>
    have hdle := hd.le
    cases cs with
    | nil =>
      obtain rfl : index = srcStop := hc
      omega
    | cons c cs =>
      unfold copyParts
      rw [if_pos (by omega)]
      cases ds with
      | nil => rfl
      | cons d ds =>
        simp only [List.length_cons] at hfuel
        have hc1 := hc.1
        have hc2 := hc.2.1
        have hd1 := hd.1
        have hd2 := hd.2.1
        simp only [List.map_cons, List.cons_append]
        split_ifs with hnext
        · have hc' : CutFrom src (d.offset + d.length) (c :: cs) srcStop := ⟨by omega, by omega, hc.2.2⟩
          exact ih (by simp only [List.length_cons]; omega) hd.next hc'
        · have hd' : CutFrom dest (c.offset + c.length) (d :: ds) destStop := ⟨by omega, by omega, hd.2.2⟩
          exact ih (by simp only [List.length_cons]; omega) hd' hc.next

/-- The bytes of all parts are set, and no others change. -/
theorem setParts_set (byte : UInt8) (h : Cut place index ps stop) :
    ∃ t, setParts byte (ps.map some) s = some t ∧ (∀ i, index ≤ i → i < stop → t (place i) = byte) ∧
      ∀ a, (∀ i, index ≤ i → i < stop → a ≠ place i) → t a = s a := by
  induction ps generalizing index s with
  | nil =>
    obtain rfl : index = stop := h
    exact ⟨s, rfl, fun i h1 h2 => absurd h2 (by omega), fun _ _ => rfl⟩
  | cons p ps ih =>
    obtain ⟨rfl, hpos, hplace, hrest⟩ := h
    obtain ⟨t, ht, hset, hkeep⟩ := ih (s := write s p.address (List.replicate p.length byte)) hrest
    have hle := hrest.le
    refine ⟨t, ht, fun i h1 h2 => ?_, fun a ha => ?_⟩
    · by_cases hin : p.offset + p.length ≤ i
      · exact hset i hin h2
      · by_cases hlater : ∃ j, p.offset + p.length ≤ j ∧ j < stop ∧ place i = place j
        · obtain ⟨j, hj1, hj2, heq⟩ := hlater
          rw [heq]
          exact hset j hj1 hj2
        · obtain ⟨k, rfl⟩ := Nat.exists_eq_add_of_le h1
          have hbyte : (List.replicate p.length byte)[k]? = some byte := List.getElem?_replicate_of_lt (by omega)
          rw [hkeep _ fun j hj1 hj2 heq => hlater ⟨j, hj1, hj2, heq⟩, hplace k (by omega)]
          exact write_inside hbyte
    · rw [hkeep a fun i h1 h2 => ha i (by omega) h2]
      apply write_outside
      rw [List.length_replicate]
      by_contra hno
      have hk := hplace (a - p.address) (by omega)
      exact ha (p.offset + (a - p.address)) (by omega) (by omega) (by omega)

theorem setParts_unfilled (byte : UInt8) (rest : List (Option Part)) :
    setParts byte (ps.map some ++ none :: rest) s = none := by
  induction ps generalizing s with
  | nil => rfl
  | cons p ps ih => exact ih

end Loops

end SomeOs.Scatter
