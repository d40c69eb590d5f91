import SomeOs.Memory.Steps

/-! # Exact reference counts

The recorded count of a frame is the number of leaves that map it, with one for a
frame that no leaf maps. It stays so as long as no mapping disappears without
giving up its reference, and then a frame is handed back with its last mapping.
-/
namespace SomeOs.MemSpace
open SparseArray PageRef Paging Transition

def Exact (s : MemState) : Prop :=
  ∀ f, f ≠ s.zero_page → recorded s f = max 1 (mappings s f)

/-- Every effect of a step keeps the counts exact. -/
theorem Effect.exact {s t : MemState} {own exact : Prop} (hs : Sound s) (hx : Exact s) (hc : exact)
    (h : Effect s t own exact) : Exact t := by
  cases h with
  | idle h =>
    intro f hf
    rw [h.zero_page] at hf
    simpa only [recorded, mappings, h.ref_count, h.leaves] using hx f hf
  | edit h he _ _ hexact =>
    intro f hf
    rw [h.zero_page] at hf
    have hmaps := h.maps he f
    have hpool := h.pool he f
    have hfits := he.fits f hf
    have hkept := hexact hc f hf
    have hrec : recorded t f = recorded s f := by simp only [recorded, h.ref_count]
    have hone := hx f hf
    obtain ⟨_, hle, hfree, _⟩ := hs.frame f
    by_cases hp : 0 < pooled s f
    · have := hfree hp
      omega
    · omega
  | share h =>
    intro f hf
    rw [h.zero_page] at hf
    have hone := hx f hf
    have hcount := h.count f
    have hmaps := h.maps f
    -- A frame that is shared was mapped before, so its count was the number of its mappings.
    rw [h.refs f hf]
    omega
  | drop h =>
    intro f hf
    rw [h.zero_page] at hf
    have hone := hx f hf
    have hmaps := h.maps f
    rw [h.refs f hf]
    omega

/-- A mapped frame is free after a step if and only if the step took away its
last mapping. -/
theorem Effect.handed_back {s t : MemState} {own exact : Prop} (hs : Sound s) (hx : Exact s)
    (hc : exact) (h : Effect s t own exact) {f : ℕ} (hf : f ≠ s.zero_page) (hm : 0 < mappings s f) :
    f ∈ t.free ↔ mappings t f = 0 := by
  obtain ⟨_, hle, hmapped, _⟩ := hs.frame f
  have hpool₀ : pooled s f = 0 := by
    by_contra hne
    have := hmapped (by omega)
    omega
  have hin : f ∈ t.free ↔ 0 < t.free.count f := List.count_pos_iff.symm
  have hparts : pooled t f = (allTables t.spaces).count f + t.free.count f := rfl
  rw [hin]
  cases h with
  | idle h =>
    have hmaps : mappings t f = mappings s f := by simp only [mappings, h.leaves]
    have hpool := (h.pool f).2
    constructor
    · intro hp
      have := (hpool (by omega)).2
      omega
    · omega
  | edit h he _ _ hexact =>
    have hmaps := h.maps he f
    have hpool := h.pool he f
    have hkept := hexact hc f hf
    omega
  | share h =>
    have hmaps := h.maps f
    have hpool := h.pool f
    omega
  | drop h =>
    have hmaps := h.maps f
    have hpool := h.pool f hf
    have htables := h.tables f
    have hparts₀ : pooled s f = (allTables s.spaces).count f + s.free.count f := rfl
    have hone := hx f hf
    omega

theorem step_exact {s t : MemState} {op : MemOp} (h : Sound s ∧ Exact s) (hok : CountSafe s op)
    (hstep : step s op = some t) : Sound t ∧ Exact t := by
  have heff := step_effect h.1 hstep (fun id new hop => by subst hop; exact hok)
  exact ⟨heff.sound h.1, heff.exact h.1 h.2 hok⟩

theorem runs_sound_exact {s t : MemState} {ops : List MemOp} (hb : Booted s)
    (hr : Runs step CountSafe s ops t) : Sound t ∧ Exact t := by
  refine hr.invariant (fun s op t h hok hstep => step_exact h hok hstep) ⟨hb.sound, fun f _ => ?_⟩
  have hmaps : mappings s f = 0 := by simp [mappings, allLeaves, hb.spaces]
  have hrec : recorded s f = 1 := by
    unfold recorded
    rw [hb.ref_count]
    exact references_of_not_live (fun i hi => absurd hi.1 (by simp [PageRefTable.empty]))
  omega

/-- In every run in which no mapping disappears without giving up its reference,
the recorded count of each mapped frame is the number of its mappings, and the
next step hands a frame back if and only if it takes away its last mapping. -/
theorem runs_counts_exact {s t : MemState} {ops : List MemOp} (hb : Booted s)
    (hr : Runs step CountSafe s ops t) :
    (∀ f, f ≠ t.zero_page → 0 < mappings t f → recorded t f = mappings t f) ∧
      ∀ op u, CountSafe t op → step t op = some u → ∀ f, f ≠ t.zero_page → 0 < mappings t f →
        (f ∈ u.free ↔ mappings u f = 0) := by
  obtain ⟨hs, hx⟩ := runs_sound_exact hb hr
  refine ⟨fun f hf hm => ?_, fun op u hok hstep f hf hm => ?_⟩
  · have := hx f hf
    omega
  · have heff := step_effect hs hstep (fun id new hop => by subst hop; exact hok)
    exact heff.handed_back hs hx hok hf hm

/-- A process with the page of a loaded segment and a heap page that is not written yet is forked, and the child
writes to its heap page. The page of the segment is mapped twice and counted twice. -/
theorem runs_counts_exact_loaded_segment :
    ∃ t, Runs step CountSafe smallMachine
        [.createMemorySpace 0, .allocatePages 3 0 8192 4096 4096 6, .setStartBrk 0, .finishLoading 0, .sbrk 0 4096,
          .cloneMemorySpace 0 1, .handlePageFault 1 12288] t ∧
      ∃ f, f ≠ t.zero_page ∧ mappings t f = 2 ∧ recorded t f = 2 := by
  have hrun : (exec step smallMachine
      [.createMemorySpace 0, .allocatePages 3 0 8192 4096 4096 6, .setStartBrk 0, .finishLoading 0]).any (fun s =>
        decide (CountSafe s (.sbrk 0 4096)) && (step s (.sbrk 0 4096)).any (fun u =>
          decide (CloneSafe u 0) && (step u (.cloneMemorySpace 0 1)).any (fun v =>
            decide (FaultSafe v 1 12288) && (step v (.handlePageFault 1 12288)).any (fun t =>
              (List.range 9).any (fun f => f != t.zero_page && mappings t f == 2))))) = true := by decide
  obtain ⟨s, hs, hrun⟩ := (Option.any_eq_true _ _).mp hrun
  obtain ⟨hbreak, hrun⟩ := (Bool.and_eq_true _ _).mp hrun
  obtain ⟨u, hu, hrun⟩ := (Option.any_eq_true _ _).mp hrun
  obtain ⟨hclone, hrun⟩ := (Bool.and_eq_true _ _).mp hrun
  obtain ⟨v, hv, hrun⟩ := (Option.any_eq_true _ _).mp hrun
  obtain ⟨hfault, hrun⟩ := (Bool.and_eq_true _ _).mp hrun
  obtain ⟨t, ht, hrun⟩ := (Option.any_eq_true _ _).mp hrun
  obtain ⟨f, _, hf⟩ := List.any_eq_true.mp hrun
  simp only [Bool.and_eq_true, bne_iff_ne, beq_iff_eq] at hf
  have hclone : CountSafe u (.cloneMemorySpace 0 1) := of_decide_eq_true (p := CloneSafe u 0) hclone
  have hfault : CountSafe v (.handlePageFault 1 12288) := of_decide_eq_true (p := FaultSafe v 1 12288) hfault
  have hr : Runs step CountSafe smallMachine _ s := .of_exec hs (by simp [CountSafe])
  have hr := ((hr.snoc (of_decide_eq_true hbreak) hu).snoc hclone hv).snoc hfault ht
  have hcount := (runs_counts_exact smallMachine_booted hr).1 f hf.1 (by omega)
  exact ⟨t, hr, f, hf.1, hf.2, hcount.trans hf.2⟩

/-- A child that writes to a page shared by a fork gets its own copy, but the
reference of its old mapping stays counted. -/
theorem fault_keeps_reference :
    ∃ t, Runs step (fun _ _ => True) smallMachine
        [.createMemorySpace 0, .setStartBrk 0, .finishLoading 0, .sbrk 0 4096, .handlePageFault 0 4096,
          .cloneMemorySpace 0 1, .handlePageFault 1 4096] t ∧
      ∃ f, f ≠ t.zero_page ∧ mappings t f = 1 ∧ recorded t f = 2 := by
  let run := exec step smallMachine [.createMemorySpace 0, .setStartBrk 0, .finishLoading 0, .sbrk 0 4096,
    .handlePageFault 0 4096, .cloneMemorySpace 0 1, .handlePageFault 1 4096]
  have hbad : run.any (fun t => (List.range 9).any
      (fun f => f != t.zero_page && mappings t f == 1 && recorded t f == 2)) := by decide +kernel
  obtain ⟨t, ht, hbad⟩ := (Option.any_eq_true _ _).mp hbad
  obtain ⟨f, _, hf⟩ := List.any_eq_true.mp hbad
  simp only [Bool.and_eq_true, bne_iff_ne, beq_iff_eq] at hf
  exact ⟨t, .of_exec ht (fun _ _ _ => trivial), f, hf.1.1, hf.1.2, hf.2⟩

end SomeOs.MemSpace
