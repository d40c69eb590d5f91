import SomeOs.Memory.Steps

/-! # Copy-on-write isolation

While write permission is only given to unshared frames, every writable leaf owns
its frame. A user store then reaches no byte that another process can read.
-/
namespace SomeOs.MemSpace
open SparseArray PageRef Paging Transition

/-- No writable leaf of a process refers to the zero page or to a frame that
another process maps. -/
def Isolated (s : MemState) : Prop :=
  ∀ id m, get? s.spaces id = some m → ∀ e ∈ entries m.mem, e.g = false → e.w = true →
    e.paddr ≠ s.zero_page ∧
      ∀ id' m', id' ≠ id → get? s.spaces id' = some m' → ∀ e' ∈ entries m'.mem, e'.paddr ≠ e.paddr

/-- Every effect of a step keeps writable frames owned. -/
theorem Effect.owned {s t : MemState} {own exact : Prop} (hs : Sound s) (ho : Owned s) (hw : own)
    (h : Effect s t own exact) : Owned t := by
  cases h with
  | idle h =>
    intro e he hew
    rw [h.leaves] at he
    simpa only [mappings, h.leaves, h.zero_page] using ho e he hew
  | edit h he _ hown _ => exact h.owned he hs ho (hown hw ho)
  | share h =>
    intro e he hew
    rw [h.zero_page, h.maps, h.count]
    rcases h.after e he with ⟨e₀, he₀, rfl⟩ | he
    · -- A shared entry is only writable when it refers to the zero page, which is not owned.
      obtain ⟨hw₀, hz⟩ := sharedEntry_w hew
      exact absurd hz (ho e₀ ((h.before e₀).mpr (Or.inl he₀)) hw₀).1
    · obtain ⟨hz, hone⟩ := ho e ((h.before e).mpr (Or.inr he)) hew
      have hpos := mapCount_pos he
      rw [h.count] at hone
      exact ⟨hz, by omega⟩
  | drop h =>
    intro e he hew
    obtain ⟨hz, hone⟩ := ho e (h.sub e he) hew
    have hpos : 0 < mappings t e.paddr := mapCount_pos he
    have hmaps := h.maps e.paddr
    rw [h.zero_page]
    exact ⟨hz, by omega⟩

theorem step_owned {s t : MemState} {op : MemOp} (h : Sound s ∧ Owned s) (hok : WriteSafe s op)
    (hstep : step s op = some t) : Sound t ∧ Owned t := by
  have heff := step_effect h.1 hstep (fun id new hop => by subst hop; exact hok)
  exact ⟨heff.sound h.1, heff.owned h.1 h.2 hok⟩

theorem runs_owned {s t : MemState} {ops : List MemOp} (hb : Booted s)
    (hr : Runs step WriteSafe s ops t) : Sound t ∧ Owned t := by
  refine hr.invariant (fun s op t h hok hstep => step_owned h hok hstep) ⟨hb.sound, ?_⟩
  intro e he
  simp [hb.spaces, allLeaves] at he

theorem two_mappings {s : MemState} {id id' : ℕ} {m m' : ProcessMemory} {e e' : PageTableEntry}
    (hne : id' ≠ id) (hm : get? s.spaces id = some m) (hm' : get? s.spaces id' = some m')
    (he : e ∈ entries m.mem) (he' : e' ∈ entries m'.mem) (hsame : e'.paddr = e.paddr) :
    2 ≤ mappings s e.paddr := by
  obtain ⟨l, r, h1, h2, _⟩ := allLeaves_split hm
  have hother : get? (set s.spaces id { m with mem := [] }) id' = some m' := by
    rw [get?_set, if_neg hne, hm']
  have hmem := mem_allLeaves hother he'
  rw [h2] at hmem
  have hmem : e' ∈ l ++ r := by simpa [entries, Paging.leaves, leavesFrom] using hmem
  have hpos := mapCount_pos hmem
  have hpos' := mapCount_pos he
  rw [mappings_eq, h1]
  simp only [mapCount_append, hsame] at hpos ⊢
  omega

theorem isolated_of_owned {s : MemState} (ho : Owned s) : Isolated s := by
  intro id m hm e he _ hw
  obtain ⟨hz, hone⟩ := ho e (mem_allLeaves hm he) hw
  refine ⟨hz, fun id' m' hne hm' e' he' hsame => ?_⟩
  have := two_mappings hne hm hm' he he' hsame
  omega

/-- In an isolated state a user store reaches no byte that another process reads. -/
theorem userLoad_userStore {s t : MemState} {id vaddr : ℕ} {byte : UInt8} (hs : Sound s)
    (hi : Isolated s) (h : userStore s id vaddr byte = some t) {id' : ℕ} (hne : id' ≠ id) (va : ℕ) :
    userLoad t id' va = userLoad s id' va := by
  unfold userStore at h
  cases hm : get? s.spaces id with
  | none => simp [hm] at h
  | some m =>
    cases he : virtToEntry 2 m.mem vaddr with
    | none => simp [hm, he] at h
    | some e =>
      simp only [hm, he] at h
      split_ifs at h with huw
      cases h
      unfold userLoad
      cases hm' : get? s.spaces id' with
      | none => rfl
      | some m' =>
        simp only
        cases he' : virtToEntry 2 m'.mem va with
        | none => rfl
        | some e' =>
          simp only
          have hw : e.w = true := by simp_all
          have hdiff := (hi id m hm e (entry_mem he)
            (hs.plain e (mem_allLeaves hm (entry_mem he))) hw).2 id' m' hne hm' e' (entry_mem he')
          rw [unsafeVirtToPhys_of_regular (hs.regular (id, m) (mem_of_get? hm)) he,
            unsafeVirtToPhys_of_regular (hs.regular (id', m') (mem_of_get? hm')) he']
          have hne' : e'.paddr * pageSize + va % pageSize ≠ e.paddr * pageSize + vaddr % pageSize := by
            simp only [pageSize]
            omega
          rw [Function.update_of_ne hne']

/-- In every run in which write permission is only given to unshared frames, all
processes stay isolated from the stores of the others. -/
theorem runs_isolated {s t : MemState} {ops : List MemOp} (hb : Booted s)
    (hr : Runs step WriteSafe s ops t) :
    Isolated t ∧ ∀ id vaddr byte u, userStore t id vaddr byte = some u →
      ∀ id', id' ≠ id → ∀ va, userLoad u id' va = userLoad t id' va := by
  obtain ⟨hs, ho⟩ := runs_owned hb hr
  have hi := isolated_of_owned ho
  exact ⟨hi, fun id vaddr byte u hu id' hne va => userLoad_userStore hs hi hu hne va⟩

/-- A process with a heap page that it has written to is forked, the child writes to its copy of the page and
makes it writable again with `mprotect`. -/
theorem runs_isolated_written_heap :
    ∃ t, Runs step WriteSafe smallMachine
        [.createMemorySpace 0, .setStartBrk 0, .finishLoading 0, .sbrk 0 4096, .handlePageFault 0 4096, .cloneMemorySpace 0 1,
          .handlePageFault 1 4096, .protect 1 4096 4096 3] t ∧
      Isolated t ∧ ∀ byte u, userStore t 1 4096 byte = some u → userLoad u 0 4096 = userLoad t 0 4096 := by
  have hrun : (exec step smallMachine
      [.createMemorySpace 0, .setStartBrk 0, .finishLoading 0, .sbrk 0 4096, .handlePageFault 0 4096]).any (fun s =>
        decide (CloneSafe s 0) && (exec step s [.cloneMemorySpace 0 1, .handlePageFault 1 4096]).any (fun u =>
          decide (WriteSafe u (.protect 1 4096 4096 3)) && (step u (.protect 1 4096 4096 3)).isSome)) = true := by decide +kernel
  obtain ⟨s, hs, hrun⟩ := (Option.any_eq_true _ _).mp hrun
  obtain ⟨hclone, hrun⟩ := (Bool.and_eq_true _ _).mp hrun
  obtain ⟨u, hu, hrun⟩ := (Option.any_eq_true _ _).mp hrun
  obtain ⟨hprotect, hrun⟩ := (Bool.and_eq_true _ _).mp hrun
  obtain ⟨t, ht⟩ := Option.isSome_iff_exists.mp hrun
  obtain ⟨v, hv, hu⟩ := Option.bind_eq_some_iff.mp hu
  obtain ⟨w, hw, hu⟩ := Option.bind_eq_some_iff.mp hu
  cases hu
  have hr : Runs step WriteSafe smallMachine _ s := .of_exec hs (by simp [WriteSafe])
  have hclone : WriteSafe s (.cloneMemorySpace 0 1) := of_decide_eq_true (p := CloneSafe s 0) hclone
  have hfault : WriteSafe v (.handlePageFault 1 4096) := trivial
  have hr := ((hr.snoc hclone hv).snoc hfault hw).snoc (of_decide_eq_true hprotect) ht
  obtain ⟨hisolated, hstores⟩ := runs_isolated smallMachine_booted hr
  exact ⟨t, hr, hisolated, fun byte u hu => hstores 1 4096 byte u hu 0 (by decide) 4096⟩

/-- After a fork, `mprotect` makes the shared zero page of the heap writable: a
store of the parent shows in the child. -/
theorem protect_breaks_isolation :
    ∃ t, Runs step (fun _ _ => True) smallMachine
        [.createMemorySpace 0, .setStartBrk 0, .finishLoading 0, .sbrk 0 4096, .cloneMemorySpace 0 1,
          .protect 0 4096 4096 3] t ∧
      ¬ Isolated t ∧
      ∃ u, userStore t 0 4096 7 = some u ∧ userLoad t 1 4096 = some 0 ∧ userLoad u 1 4096 = some 7 := by
  let run := exec step smallMachine [.createMemorySpace 0, .setStartBrk 0, .finishLoading 0, .sbrk 0 4096,
    .cloneMemorySpace 0 1, .protect 0 4096 4096 3]
  have hsome : run.isSome := by decide
  have hleaf : run.any (fun t => (get? t.spaces 0).any (fun m => (entries m.mem).any
      (fun e => !e.g && e.w && e.paddr == t.zero_page))) := by decide
  have hseen : run.any (fun t => userLoad t 1 4096 == some 0 &&
      (userStore t 0 4096 7).any (fun u => userLoad u 1 4096 == some 7)) := by decide
  obtain ⟨t, ht⟩ := Option.isSome_iff_exists.mp hsome
  rw [ht, Option.any_some] at hleaf hseen
  refine ⟨t, .of_exec ht (fun _ _ _ => trivial), fun hi => ?_, ?_⟩
  · obtain ⟨m, hm, hleaf⟩ := (Option.any_eq_true _ _).mp hleaf
    obtain ⟨e, he, hbits⟩ := List.any_eq_true.mp hleaf
    simp only [Bool.and_eq_true, Bool.not_eq_true', beq_iff_eq] at hbits
    exact (hi 0 m hm e he hbits.1.1 hbits.1.2).1 hbits.2
  · rw [Bool.and_eq_true] at hseen
    obtain ⟨u, hu, hload⟩ := (Option.any_eq_true _ _).mp hseen.2
    exact ⟨u, hu, beq_iff_eq.mp hseen.1, beq_iff_eq.mp hload⟩

end SomeOs.MemSpace
