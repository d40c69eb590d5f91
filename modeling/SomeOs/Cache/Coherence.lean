import SomeOs.Cache.Types

/-! # Coherence of the block cache

A cached block is the block of the device, or a write that has put the block on the device
still has to put it in the table. This is lost when writes update the table in another
order than the device, and when a block is reclaimed before a read that has fetched older
contents puts them in the table.
-/
namespace SomeOs.Cache
open Transition
variable {B : Type*}

def Pending (s : CacheState B) (b : ℕ) : Prop :=
  ∃ w ∈ s.writes, w.written = true ∧ w.data b = some (s.device b)

/-- When a write updates the table its blocks are on the device, or are those of a write that
still has to update the table; a block is not reclaimed while a read has other contents of it
to put in the table. -/
def Serial (s : CacheState B) : CacheAction B → Prop
  | .stepWrite i => ∀ w ∈ s.writes[i]?, w.written = true → ∀ k < w.bytes.length, ∀ d ∈ w.bytes[k]?,
    d = s.device (w.offset + k) ∨ ∃ w' ∈ s.writes.eraseIdx i,
      w'.written = true ∧ w'.data (w.offset + k) = some (s.device (w.offset + k))
  | .reclaim drop => ∀ r ∈ s.reads,
    match r.phase with
    | .publish offset bytes _ => ∀ k < bytes.length, ∀ v ∈ bytes[k]?, drop (offset + k) = true →
      v = s.device (offset + k) ∨ Pending s (offset + k)
    | _ => True
  | _ => True

instance [DecidableEq B] (s : CacheState B) (b : ℕ) : Decidable (Pending s b) :=
  inferInstanceAs (Decidable (∃ w ∈ s.writes, w.written = true ∧ w.data b = some (s.device b)))

instance [DecidableEq B] (s : CacheState B) (act : CacheAction B) : Decidable (Serial s act) := by
  unfold Serial
  cases act with
  | reclaim drop =>
    refine @List.decidableBAll _ _ ?_ s.reads
    intro r
    dsimp only
    cases r.phase <;> infer_instance
  | _ => infer_instance

/-- Cached blocks are those of the device when no write of them is in progress, and reads
return what they should. -/
structure Coherent (s : CacheState B) : Prop where
  cached : ∀ b, (∀ w ∈ s.writes, w.data b = none) → ∀ v, s.table b = some v → v = s.device b
  reads : ∀ r ∈ s.results, ∀ b, r.offset ≤ b → b < r.offset + r.size →
    ∃ v, r.buff b = some v ∧ ∀ w, r.expect b = some w → v = w

def Progress (r : ReadCall B) : Prop :=
  match r.phase with
  | .start => True
  | .fetch offset uncached next => next ≤ r.offset + r.size ∧
    ∀ b, r.offset ≤ b → b < next → b < offset ∨ offset + uncached ≤ b → r.buff b ≠ none
  | .publish _ _ next => next ≤ r.offset + r.size ∧ ∀ b, r.offset ≤ b → b < next → r.buff b ≠ none

structure ReadInv (s : CacheState B) (r : ReadCall B) : Prop where
  expect : ∀ b v, r.expect b = some v → v = s.device b ∧ ∀ w ∈ s.writes, w.data b = none
  buff : ∀ b v, r.buff b = some v → ∀ w, r.expect b = some w → v = w
  held : ∀ offset bytes next, r.phase = .publish offset bytes next → ∀ b v, slice offset bytes b = some v →
    v = s.device b ∨ Pending s b ∨ s.table b ≠ none
  progress : Progress r

structure CacheInv (s : CacheState B) : Prop where
  fresh : ∀ b v, s.table b = some v → v = s.device b ∨ Pending s b
  last : ∀ b v, s.last b = some v → v = s.device b ∧ ∀ w ∈ s.writes, w.data b = none
  reads : ∀ r ∈ s.reads, ReadInv s r
  results : ∀ r ∈ s.results, ∀ b, r.offset ≤ b → b < r.offset + r.size →
    ∃ v, r.buff b = some v ∧ ∀ w, r.expect b = some w → v = w

section Slice
variable {offset b : ℕ} {bytes : List B} {v : B}

theorem slice_eq_some : slice offset bytes b = some v ↔ ∃ k, b = offset + k ∧ bytes[k]? = some v := by
  unfold slice
  constructor
  · intro h
    split_ifs at h with hle
    exact ⟨b - offset, by omega, h⟩
  · rintro ⟨k, rfl, hk⟩
    rw [if_pos (Nat.le_add_right _ _), Nat.add_sub_cancel_left]
    exact hk

theorem not_pending {s : CacheState B} (h : ∀ w ∈ s.writes, w.data b = none) : ¬Pending s b := by
  rintro ⟨w, hw, -, hd⟩
  rw [h w hw] at hd
  cases hd

end Slice

section Scan
variable {table buff buff' : ℕ → Option B} {size offset uncached first : ℕ} {out : Option (ℕ × ℕ × ℕ)}

/-- A section copies cached blocks. -/
theorem scan_copies (h : scan table size offset uncached buff = (buff', out)) (b : ℕ) :
    buff' b = buff b ∨ ∃ v, table b = some v ∧ buff' b = some v := by
  induction size generalizing offset uncached buff with
  | zero =>
    cases h
    exact Or.inl rfl
  | succ size ih =>
    simp only [scan] at h
    cases ht : table (offset + uncached) with
    | none =>
      rw [ht] at h
      exact ih h
    | some v =>
      rw [ht] at h
      simp only at h
      split_ifs at h with hu
      · cases h
        by_cases hb : b = offset + uncached
        · subst hb
          exact Or.inr ⟨v, ht, Function.update_self ..⟩
        · exact Or.inl (Function.update_of_ne hb ..)
      · rcases ih h with hsame | hcopy
        · by_cases hb : b = offset + uncached
          · subst hb
            refine Or.inr ⟨v, ht, ?_⟩
            rw [hsame, Function.update_self]
          · left
            rw [hsame, Function.update_of_ne hb]
        · exact Or.inr hcopy

def ScanDone (first stop : ℕ) (buff : ℕ → Option B) : Option (ℕ × ℕ × ℕ) → Prop
  | none => ∀ b, first ≤ b → b < stop → buff b ≠ none
  | some (offset, uncached, next) => next ≤ stop ∧
    ∀ b, first ≤ b → b < next → b < offset ∨ offset + uncached ≤ b → buff b ≠ none

theorem scan_done (h : scan table size offset uncached buff = (buff', out))
    (hbefore : ∀ b, first ≤ b → b < offset → buff b ≠ none) :
    ScanDone first (offset + uncached + size) buff' out := by
  induction size generalizing offset uncached buff with
  | zero =>
    simp only [scan, Prod.mk.injEq] at h
    obtain ⟨rfl, rfl⟩ := h
    by_cases hu : uncached = 0
    · rw [if_neg (not_not.mpr hu), hu]
      exact hbefore
    · rw [if_pos hu]
      exact ⟨le_refl _, fun b hb hlt hout => hbefore b hb (by omega)⟩
  | succ size ih =>
    simp only [scan] at h
    cases ht : table (offset + uncached) with
    | none =>
      rw [ht] at h
      have := ih h hbefore
      rwa [Nat.add_assoc, Nat.add_assoc, Nat.add_comm 1 size, ← Nat.add_assoc] at this
    | some v =>
      rw [ht] at h
      have hup : ∀ b, first ≤ b → b < offset ∨ b = offset + uncached →
          Function.update buff (offset + uncached) (some v) b ≠ none := by
        intro b hb hor
        by_cases hbu : b = offset + uncached
        · rw [hbu, Function.update_self]
          simp
        · rw [Function.update_of_ne hbu]
          exact hbefore b hb (hor.resolve_right hbu)
      simp only at h
      split_ifs at h with hu
      · cases h
        exact ⟨by omega, fun b hb hlt hout => hup b hb (by omega)⟩
      · obtain rfl : uncached = 0 := by omega
        have := ih h (fun b hb hlt => hup b hb (by omega))
        rwa [Nat.add_zero, Nat.add_assoc, Nat.add_comm 1 size, ← Nat.add_assoc] at this

end Scan

section Step
variable {s : CacheState B} {r : ReadCall B} {w : WriteCall B} {i b : ℕ}

theorem Pending.exists_index (h : Pending s b) :
    ∃ (j : ℕ) (w' : WriteCall B), s.writes[j]? = some w' ∧ w'.written = true ∧ w'.data b = some (s.device b) := by
  obtain ⟨w', hmem, hwritten, hdata⟩ := h
  obtain ⟨j, hj⟩ := List.mem_iff_getElem?.mp hmem
  exact ⟨j, w', hj, hwritten, hdata⟩

theorem Pending.eraseIdx (h : Pending s b) (hw : s.writes[i]? = some w)
    (hne : w.written = false ∨ w.data b = none) :
    ∃ w' ∈ s.writes.eraseIdx i, w'.written = true ∧ w'.data b = some (s.device b) := by
  obtain ⟨j, w', hj, hwritten, hdata⟩ := h.exists_index
  have hji : j ≠ i := by
    rintro rfl
    obtain rfl : w = w' := Option.some.inj (hw.symm.trans hj)
    rcases hne with hne | hne
    · rw [hne] at hwritten
      cases hwritten
    · rw [hne] at hdata
      cases hdata
  exact ⟨w', List.mem_eraseIdx_iff_getElem?.mpr ⟨j, hji, hj⟩, hwritten, hdata⟩

/-- A write to the device leaves its blocks pending. -/
theorem pending_stepWrite (hw : s.writes[i]? = some w) (hwritten : w.written = false)
    (h : Pending s b ∨ w.data b ≠ none) : Pending (s.stepWrite i w) b := by
  simp only [CacheState.stepWrite, hwritten, Bool.false_eq_true, ↓reduceIte]
  obtain ⟨hlt, -⟩ := List.getElem?_eq_some_iff.mp hw
  cases hd : w.data b with
  | some d =>
    refine ⟨{ w with written := true }, List.mem_set hlt _, rfl, ?_⟩
    show w.data b = some ((w.data b).getD (s.device b))
    rw [hd]
    rfl
  | none =>
    obtain ⟨j, w', hj, hwritten', hdata⟩ := (h.resolve_right (not_not.mpr hd)).exists_index
    have hji : i ≠ j := by
      rintro rfl
      obtain rfl : w = w' := Option.some.inj (hw.symm.trans hj)
      rw [hwritten] at hwritten'
      cases hwritten'
    refine ⟨w', List.mem_iff_getElem?.mpr ⟨j, ?_⟩, hwritten', ?_⟩
    · rw [List.getElem?_set_ne hji]
      exact hj
    · show w'.data b = some ((w.data b).getD (s.device b))
      rw [hd]
      exact hdata

theorem CacheInv.read (hs : CacheInv s) (offset size : ℕ) :
    CacheInv { s with reads := s.reads ++ [⟨offset, size, fun _ => none, s.last, .start⟩] } := by
  refine ⟨hs.fresh, hs.last, ?_, hs.results⟩
  intro r hr
  rcases List.mem_append.mp hr with hold | hnew
  · exact ⟨(hs.reads r hold).expect, (hs.reads r hold).buff, (hs.reads r hold).held,
      (hs.reads r hold).progress⟩
  · rw [List.mem_singleton.mp hnew]
    exact ⟨hs.last, fun _ _ h => (by cases h), fun _ _ _ h => (by cases h), trivial⟩

theorem CacheInv.startWrite (hs : CacheInv s) (w : WriteCall B) : CacheInv (s.startWrite w) := by
  have hpending : ∀ b, Pending s b → Pending (s.startWrite w) b := by
    rintro b ⟨w', hmem, hrest⟩
    exact ⟨w', List.mem_append_left _ hmem, hrest⟩
  -- What is known of a block is forgotten when the new write covers it.
  have hknown : ∀ b (f : ℕ → Option B) v, (if (w.data b).isSome then none else f b) = some v →
      (∀ v, f b = some v → v = s.device b ∧ ∀ w ∈ s.writes, w.data b = none) →
      v = s.device b ∧ ∀ w' ∈ s.writes ++ [w], w'.data b = none := by
    intro b f v h hf
    split_ifs at h with hd
    obtain ⟨hv, hnone⟩ := hf v h
    refine ⟨hv, fun w' hw' => ?_⟩
    rcases List.mem_append.mp hw' with hold | hnew
    · exact hnone w' hold
    · rw [List.mem_singleton.mp hnew]
      exact Option.not_isSome_iff_eq_none.mp hd
  refine ⟨fun b v h => (hs.fresh b v h).imp_right (hpending b), fun b v h => hknown b s.last v h (hs.last b), ?_,
    hs.results⟩
  intro r' hr'
  obtain ⟨r, hr, rfl⟩ := List.mem_map.mp hr'
  have h := hs.reads r hr
  refine ⟨fun b v hv => hknown b r.expect v hv (h.expect b), ?_, ?_, h.progress⟩
  · intro b v hv e he
    change (if (w.data b).isSome then none else r.expect b) = some e at he
    split_ifs at he
    exact h.buff b v hv e he
  · intro offset bytes next hphase b v hv
    exact (h.held offset bytes next hphase b v hv).imp_right (Or.imp_left (hpending b))

/-- A section of a read, when `size` blocks are left. -/
theorem CacheInv.scanned (hs : CacheInv s) (hr : r ∈ s.reads) {size next : ℕ}
    (hsize : next + size = r.offset + r.size) (hbefore : ∀ b, r.offset ≤ b → b < next → r.buff b ≠ none) :
    CacheInv (s.scanned i r (scan s.table size next 0 r.buff)) := by
  have h := hs.reads r hr
  obtain ⟨⟨buff, out⟩, hscan⟩ : ∃ p, scan s.table size next 0 r.buff = p := ⟨_, rfl⟩
  have hdone := scan_done hscan hbefore
  rw [Nat.add_zero, hsize] at hdone
  have hbuff : ∀ b v, buff b = some v → ∀ e, r.expect b = some e → v = e := by
    intro b v hv e he
    rcases scan_copies hscan b with hsame | ⟨v', ht, hcopy⟩
    · exact h.buff b v (hsame ▸ hv) e he
    · obtain ⟨hdev, hnone⟩ := h.expect b e he
      obtain rfl : v' = v := Option.some.inj (hcopy.symm.trans hv)
      rw [hdev]
      exact (hs.fresh b v' ht).resolve_right (not_pending hnone)
  rw [hscan]
  cases out with
  | none =>
    refine ⟨hs.fresh, hs.last, ?_, ?_⟩
    · intro r' hr'
      have h' := hs.reads r' (List.mem_of_mem_eraseIdx hr')
      exact ⟨h'.expect, h'.buff, h'.held, h'.progress⟩
    · intro r' hr' b hle hlt
      rcases List.mem_append.mp hr' with hold | hnew
      · exact hs.results r' hold b hle hlt
      · obtain rfl := List.mem_singleton.mp hnew
        obtain ⟨v, hv⟩ := Option.ne_none_iff_exists'.mp (hdone b hle hlt)
        exact ⟨v, hv, hbuff b v hv⟩
  | some out =>
    obtain ⟨offset, uncached, next⟩ := out
    refine ⟨hs.fresh, hs.last, ?_, hs.results⟩
    intro r' hr'
    rcases List.mem_or_eq_of_mem_set hr' with hold | rfl
    · have h' := hs.reads r' hold
      exact ⟨h'.expect, h'.buff, h'.held, h'.progress⟩
    · exact ⟨h.expect, hbuff, fun _ _ _ hphase => (by cases hphase), hdone⟩

/-- Fetched blocks that are put in the table are fresh. -/
theorem CacheInv.publishRead (hs : CacheInv s) (hr : r ∈ s.reads) {offset next : ℕ} {bytes : List B}
    (hphase : r.phase = .publish offset bytes next) :
    CacheInv { s with table := publishRead s.table offset bytes } := by
  have hkeep : ∀ b, s.table b ≠ none → Cache.publishRead s.table offset bytes b ≠ none := by
    intro b hb
    obtain ⟨v, hv⟩ := Option.ne_none_iff_exists'.mp hb
    rw [Cache.publishRead, hv]
    simp
  refine ⟨?_, hs.last, ?_, hs.results⟩
  · intro b v hv
    cases ht : s.table b with
    | some v' =>
      change (s.table b).or (slice offset bytes b) = some v at hv
      rw [ht] at hv
      obtain rfl : v' = v := Option.some.inj hv
      exact hs.fresh b v' ht
    | none =>
      change (s.table b).or (slice offset bytes b) = some v at hv
      rw [ht] at hv
      rcases (hs.reads r hr).held offset bytes next hphase b v hv with hdev | hpending | htable
      · exact Or.inl hdev
      · exact Or.inr hpending
      · exact absurd ht htable
  · intro r' hr'
    have h' := hs.reads r' hr'
    refine ⟨h'.expect, h'.buff, ?_, h'.progress⟩
    intro offset' bytes' next' hphase' b v hv
    exact (h'.held offset' bytes' next' hphase' b v hv).imp_right (Or.imp_right (hkeep b))

theorem slice_fetched {offset uncached : ℕ} {device : ℕ → B} {v : B}
    (h : slice offset ((List.range uncached).map fun k => device (offset + k)) b = some v) : v = device b := by
  obtain ⟨k, rfl, hk⟩ := slice_eq_some.mp h
  rw [List.getElem?_map] at hk
  obtain ⟨k', hk', rfl⟩ := Option.map_eq_some_iff.mp hk
  rw [List.getElem?_range (by
    by_contra hge
    rw [List.getElem?_eq_none (by rw [List.length_range]; omega)] at hk'
    cases hk')] at hk'
  cases hk'
  rfl

theorem slice_covers {offset uncached : ℕ} {device : ℕ → B} (hle : offset ≤ b) (hlt : b < offset + uncached) :
    slice offset ((List.range uncached).map fun k => device (offset + k)) b ≠ none := by
  rw [slice, if_pos hle, List.getElem?_map, List.getElem?_range (by omega)]
  simp

theorem CacheInv.stepRead (hs : CacheInv s) (hr : s.reads[i]? = some r) : CacheInv (s.stepRead i r) := by
  have hmem : r ∈ s.reads := List.mem_of_getElem? hr
  have h := hs.reads r hmem
  have hprogress := h.progress
  unfold CacheState.stepRead
  unfold Progress at hprogress
  cases hphase : r.phase with
  | start => exact hs.scanned hmem rfl (fun b hle hlt => by omega)
  | fetch offset uncached next =>
    rw [hphase] at hprogress
    obtain ⟨hnext, hcopied⟩ := hprogress
    refine ⟨hs.fresh, hs.last, ?_, hs.results⟩
    intro r' hr'
    rcases List.mem_or_eq_of_mem_set hr' with hold | rfl
    · have h' := hs.reads r' hold
      exact ⟨h'.expect, h'.buff, h'.held, h'.progress⟩
    · refine ⟨h.expect, ?_, ?_, hnext, ?_⟩
      · intro b v hv e he
        rcases Option.or_eq_some_iff.mp hv with hnew | ⟨-, hold⟩
        · rw [slice_fetched hnew, (h.expect b e he).1]
        · exact h.buff b v hold e he
      · intro offset' bytes' next' hphase' b v hv
        cases hphase'
        exact Or.inl (slice_fetched hv)
      · intro b hle hlt hnone
        obtain ⟨hslice, hbuff⟩ := Option.or_eq_none_iff.mp hnone
        refine hcopied b hle hlt ?_ hbuff
        by_contra hin
        exact slice_covers (by omega) (by omega) hslice
  | publish offset bytes next =>
    rw [hphase] at hprogress
    obtain ⟨hnext, hcopied⟩ := hprogress
    exact (hs.publishRead hmem hphase).scanned hmem (by omega) hcopied

theorem CacheInv.stepWrite_device (hs : CacheInv s) (hw : s.writes[i]? = some w) (hwritten : w.written = false) :
    CacheInv (s.stepWrite i w) := by
  have hpending : ∀ b, Pending s b ∨ w.data b ≠ none → Pending (s.stepWrite i w) b :=
    fun b => pending_stepWrite hw hwritten
  have hmem : w ∈ s.writes := List.mem_of_getElem? hw
  simp only [CacheState.stepWrite, hwritten, Bool.false_eq_true, ↓reduceIte] at hpending ⊢
  -- A block of the device has changed only where the write covers it.
  have hfresh : ∀ b v, v = s.device b ∨ Pending s b → v = (w.data b).getD (s.device b) ∨ Pending
      { s with device := fun b => (w.data b).getD (s.device b), writes := s.writes.set i { w with written := true } }
      b := by
    intro b v h
    cases hd : w.data b with
    | some d => exact Or.inr (hpending b (Or.inr (by rw [hd]; simp)))
    | none => exact h.imp_right (fun hp => hpending b (Or.inl hp))
  have hknown : ∀ b v, (v = s.device b ∧ ∀ w ∈ s.writes, w.data b = none) → v = (w.data b).getD (s.device b) ∧
      ∀ w' ∈ s.writes.set i { w with written := true }, w'.data b = none := by
    rintro b v ⟨hv, hnone⟩
    refine ⟨by rw [hnone w hmem]; exact hv, fun w' hw' => ?_⟩
    rcases List.mem_or_eq_of_mem_set hw' with hold | rfl
    · exact hnone w' hold
    · exact hnone w hmem
  refine ⟨fun b v h => hfresh b v (hs.fresh b v h), fun b v h => hknown b v (hs.last b v h), ?_, hs.results⟩
  intro r hr
  have h := hs.reads r hr
  refine ⟨fun b v hv => hknown b v (h.expect b v hv), h.buff, ?_, h.progress⟩
  intro offset bytes next hphase b v hv
  rcases h.held offset bytes next hphase b v hv with hdev | hpend | htable
  · exact (hfresh b v (Or.inl hdev)).imp_right Or.inl
  · exact (hfresh b v (Or.inr hpend)).imp_right Or.inl
  · exact Or.inr (Or.inr htable)

theorem CacheInv.stepWrite_table (hs : CacheInv s) (hw : s.writes[i]? = some w) (hwritten : w.written = true)
    (hok : ∀ b d, w.data b = some d → d = s.device b ∨
      ∃ w' ∈ s.writes.eraseIdx i, w'.written = true ∧ w'.data b = some (s.device b)) :
    CacheInv (s.stepWrite i w) := by
  have hless : ∀ b, (∀ w ∈ s.writes, w.data b = none) → ∀ w ∈ s.writes.eraseIdx i, w.data b = none :=
    fun b h w' hw' => h w' (List.mem_of_mem_eraseIdx hw')
  simp only [CacheState.stepWrite, hwritten, ↓reduceIte]
  refine ⟨?_, ?_, ?_, hs.results⟩
  · intro b v hv
    rcases Option.or_eq_some_iff.mp hv with hnew | ⟨hnone, hold⟩
    · exact hok b v hnew
    · exact (hs.fresh b v hold).imp_right (fun hp => hp.eraseIdx hw (Or.inr hnone))
  · intro b v hv
    change (if (s.writes.eraseIdx i).all (fun w' => (w'.data b).isNone) then (w.data b).or (s.last b)
      else s.last b) = some v at hv
    split_ifs at hv with hall
    · have hnone : ∀ w' ∈ s.writes.eraseIdx i, w'.data b = none := by
        intro w' hw'
        exact Option.isNone_iff_eq_none.mp (List.all_eq_true.mp hall w' hw')
      refine ⟨?_, hnone⟩
      rcases Option.or_eq_some_iff.mp hv with hnew | ⟨-, hold⟩
      · rcases hok b v hnew with hdev | ⟨w', hw', -, hdata⟩
        · exact hdev
        · rw [hnone w' hw'] at hdata
          cases hdata
      · exact (hs.last b v hold).1
    · exact ⟨(hs.last b v hv).1, hless b (hs.last b v hv).2⟩
  · intro r hr
    have h := hs.reads r hr
    refine ⟨fun b v hv => ⟨(h.expect b v hv).1, hless b (h.expect b v hv).2⟩, h.buff, ?_, h.progress⟩
    intro offset bytes next hphase b v hv
    cases hd : w.data b with
    | some d =>
      refine Or.inr (Or.inr ?_)
      show (w.data b).or (s.table b) ≠ none
      rw [hd]
      simp
    | none =>
      rcases h.held offset bytes next hphase b v hv with hdev | hpend | htable
      · exact Or.inl hdev
      · exact Or.inr (Or.inl (hpend.eraseIdx hw (Or.inr hd)))
      · refine Or.inr (Or.inr ?_)
        show (w.data b).or (s.table b) ≠ none
        rw [hd]
        exact htable

theorem CacheInv.failWrite (hs : CacheInv s) (hw : s.writes[i]? = some w) (hwritten : w.written = false) :
    CacheInv { s with writes := s.writes.eraseIdx i } := by
  have hpending : ∀ b, Pending s b → Pending { s with writes := s.writes.eraseIdx i } b :=
    fun b hp => hp.eraseIdx hw (Or.inl hwritten)
  have hless : ∀ b, (∀ w ∈ s.writes, w.data b = none) → ∀ w ∈ s.writes.eraseIdx i, w.data b = none :=
    fun b h w' hw' => h w' (List.mem_of_mem_eraseIdx hw')
  refine ⟨fun b v h => (hs.fresh b v h).imp_right (hpending b),
    fun b v h => ⟨(hs.last b v h).1, hless b (hs.last b v h).2⟩, ?_, hs.results⟩
  intro r hr
  have h := hs.reads r hr
  refine ⟨fun b v hv => ⟨(h.expect b v hv).1, hless b (h.expect b v hv).2⟩, h.buff, ?_, h.progress⟩
  intro offset bytes next hphase b v hv
  exact (h.held offset bytes next hphase b v hv).imp_right (Or.imp_left (hpending b))

theorem CacheInv.reclaim (hs : CacheInv s) {drop : ℕ → Bool} (hok : Serial s (.reclaim drop)) :
    CacheInv { s with table := fun b => if drop b then none else s.table b } := by
  refine ⟨?_, hs.last, ?_, hs.results⟩
  · intro b v hv
    change (if drop b then none else s.table b) = some v at hv
    split_ifs at hv
    exact hs.fresh b v hv
  · intro r hr
    have h := hs.reads r hr
    refine ⟨h.expect, h.buff, ?_, h.progress⟩
    intro offset bytes next hphase b v hv
    by_cases hdrop : drop b = true
    · have hheld := hok r hr
      rw [hphase] at hheld
      obtain ⟨k, rfl, hk⟩ := slice_eq_some.mp hv
      obtain ⟨hlt, -⟩ := List.getElem?_eq_some_iff.mp hk
      exact (hheld k hlt v hk hdrop).imp_right Or.inl
    · refine (h.held offset bytes next hphase b v hv).imp_right (Or.imp_right ?_)
      intro htable
      show (if drop b then none else s.table b) ≠ none
      rw [if_neg hdrop]
      exact htable

end Step

/-- A step under the condition keeps the invariant. -/
theorem cacheStep_inv (s : CacheState B) (act : CacheAction B) (t : CacheState B) (hs : CacheInv s)
    (hok : Serial s act) (h : cacheStep s act = some t) : CacheInv t := by
  cases act with
  | read offset size =>
    cases h
    exact hs.read offset size
  | write offset bytes =>
    cases h
    exact hs.startWrite _
  | stepRead i =>
    obtain ⟨r, hr, rfl⟩ := Option.map_eq_some_iff.mp h
    exact hs.stepRead hr
  | stepWrite i =>
    obtain ⟨w, hw, rfl⟩ := Option.map_eq_some_iff.mp h
    cases hwritten : w.written with
    | false => exact hs.stepWrite_device hw hwritten
    | true =>
      refine hs.stepWrite_table hw hwritten ?_
      intro b d hd
      obtain ⟨k, rfl, hk⟩ := slice_eq_some.mp hd
      obtain ⟨hlt, -⟩ := List.getElem?_eq_some_iff.mp hk
      exact hok w hw hwritten k hlt d hk
  | failRead i =>
    obtain ⟨r, hr, hfail⟩ := Option.bind_eq_some_iff.mp h
    cases hphase : r.phase with
    | fetch offset uncached next =>
      rw [hphase] at hfail
      cases hfail
      refine ⟨hs.fresh, hs.last, ?_, hs.results⟩
      intro r' hr'
      have h' := hs.reads r' (List.mem_of_mem_eraseIdx hr')
      exact ⟨h'.expect, h'.buff, h'.held, h'.progress⟩
    | start =>
      rw [hphase] at hfail
      cases hfail
    | publish offset bytes next =>
      rw [hphase] at hfail
      cases hfail
  | failWrite i =>
    obtain ⟨w, hw, hfail⟩ := Option.bind_eq_some_iff.mp h
    split_ifs at hfail with hwritten
    cases hfail
    exact hs.failWrite hw (Bool.not_eq_true _ ▸ hwritten)
  | reclaim drop =>
    cases h
    exact hs.reclaim hok

theorem cacheInv_wrapBlockDeviceWithCache (device : ℕ → B) : CacheInv (wrapBlockDeviceWithCache device) :=
  ⟨fun _ _ h => (by cases h), fun _ _ h => (by cases h), fun _ h => (by cases h), fun _ h => (by cases h)⟩

theorem CacheInv.coherent {s : CacheState B} (hs : CacheInv s) : Coherent s :=
  ⟨fun b hnone v hv => (hs.fresh b v hv).resolve_right (not_pending hnone), hs.results⟩

/-- While updates of the table follow the device, cached blocks are those of the device. -/
theorem runs_coherent (device : ℕ → B) (acts : List (CacheAction B)) (s : CacheState B)
    (hr : Runs cacheStep Serial (wrapBlockDeviceWithCache device) acts s) : Coherent s :=
  (hr.invariant cacheStep_inv (cacheInv_wrapBlockDeviceWithCache device)).coherent

/-- A block is written, dropped, read from the device, and written again beside another read. -/
def rewriting : List (CacheAction ℕ) :=
  [.write 3 [7], .stepWrite 0, .stepWrite 0, .reclaim (fun _ => true), .read 2 3, .stepRead 0, .stepRead 0,
    .stepRead 0, .write 3 [8], .read 3 1, .stepRead 0, .stepWrite 0, .stepWrite 0, .read 3 1, .stepRead 0]

theorem runs_coherent_rewriting : ∃ s, Runs cacheStep Serial (wrapBlockDeviceWithCache fun _ => 0) rewriting s ∧
    Coherent s ∧ s.table 3 = some 8 := by
  obtain ⟨s, hs⟩ : ∃ s, execOk cacheStep Serial (wrapBlockDeviceWithCache fun _ => 0) rewriting = some s :=
    Option.isSome_iff_exists.mp (by decide)
  have hr := Runs.of_execOk hs
  have htable : (execOk cacheStep Serial (wrapBlockDeviceWithCache fun _ => 0) rewriting).bind (·.table 3) =
      some 8 := by decide
  rw [hs] at htable
  exact ⟨s, hr, runs_coherent _ _ s hr, htable⟩

/-- Two writes of a block reach the device in one order and the table in the other. -/
theorem not_coherent : ¬∀ (device : ℕ → ℕ) (acts : List (CacheAction ℕ)) (s : CacheState ℕ),
    Runs cacheStep (fun _ _ => True) (wrapBlockDeviceWithCache device) acts s → Coherent s := by
  intro h
  obtain ⟨s, hs⟩ : ∃ s, exec cacheStep (wrapBlockDeviceWithCache fun _ => 0)
      [.write 3 [7], .write 3 [8], .stepWrite 0, .stepWrite 1, .stepWrite 1, .stepWrite 0] = some s :=
    ⟨_, rfl⟩
  have hcached := (h (fun _ => 0) _ s (Runs.of_exec hs (fun _ _ _ => trivial))).cached 3
  cases hs
  have := hcached (fun _ hw => by cases hw) 7 rfl
  revert this
  decide

end SomeOs.Cache
