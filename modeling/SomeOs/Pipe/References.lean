import SomeOs.Pipe.Types

/-! # The references to a pipe

Calls on a pipe do not count as references: only copies and closes change the counts.
-/
namespace SomeOs.Pipe

def PipeAction.keepsEnds : PipeAction → Bool
  | .copy _ => false
  | .close _ => false
  | _ => true

def SameRefs (s t : PipeState) : Prop := t.ref_count = s.ref_count ∧ t.write_count = s.write_count

theorem SameRefs.refl (s : PipeState) : SameRefs s s := ⟨rfl, rfl⟩

theorem SameRefs.trans {s t u : PipeState} (h : SameRefs s t) (h' : SameRefs t u) : SameRefs s u :=
  ⟨h'.1.trans h.1, h'.2.trans h.2⟩

section Calls
variable {s t : PipeState} {task a : ℕ} {write block : Bool} {why : Wake} {request : Request}

theorem sameRefs_setQueue (s : PipeState) (write : Bool) (q : WaitQueue) : SameRefs s (s.setQueue write q) := by
  cases write <;> exact .refl s

theorem sameRefs_awakenTask (h : s.awakenTask task why = some t) : SameRefs s t := by
  unfold PipeState.awakenTask at h
  split_ifs at h
  cases h
  exact .refl s

theorem sameRefs_popWaiting (h : s.popWaiting write a why = some t) : SameRefs s t :=
  (sameRefs_setQueue s write _).trans (sameRefs_awakenTask h)

theorem sameRefs_serveRead (h : s.serveRead a = some t) : SameRefs s t := by
  have htransfer : SameRefs s (s.transferRead a) := .refl s
  simp only [PipeState.serveRead] at h
  split_ifs at h
  · exact htransfer.trans (sameRefs_popWaiting h)
  · exact htransfer.trans (sameRefs_popWaiting h)
  · cases h
    exact htransfer

theorem sameRefs_serveWrite (h : s.serveWrite a = some t) : SameRefs s t := by
  have htransfer : SameRefs s (s.transferWrite a) := .refl s
  simp only [PipeState.serveWrite] at h
  split_ifs at h
  · exact htransfer.trans (sameRefs_popWaiting h)
  · cases h
    exact htransfer

theorem sameRefs_serviceLoop {n : ℕ} (h : PipeState.serviceLoop n s = some t) : SameRefs s t := by
  induction n generalizing s with
  | zero => cases h
  | succ n ih =>
    simp only [PipeState.serviceLoop] at h
    split at h
    · obtain ⟨u, hu, h⟩ := Option.bind_eq_some_iff.mp h
      exact (sameRefs_serveRead hu).trans (ih h)
    · split at h
      · obtain ⟨u, hu, h⟩ := Option.bind_eq_some_iff.mp h
        exact (sameRefs_serveWrite hu).trans (ih h)
      · cases h
        exact .refl _

theorem sameRefs_doOperationOnPipe (h : s.doOperationOnPipe = some t) : SameRefs s t := by
  obtain ⟨reads, -, h⟩ := Option.bind_eq_some_iff.mp h
  obtain ⟨writes, -, h⟩ := Option.bind_eq_some_iff.mp h
  exact sameRefs_serviceLoop h

theorem sameRefs_enqueue (h : s.enqueue write a = some t) : SameRefs s t := by
  unfold PipeState.enqueue at h
  split at h
  · cases h
    exact sameRefs_setQueue s write _
  · obtain ⟨tail, -, h⟩ := Option.bind_eq_some_iff.mp h
    split_ifs at h
    cases h
    exact .refl s

theorem sameRefs_executePipeOperation (h : s.executePipeOperation task a request block = some t) : SameRefs s t := by
  obtain ⟨n, -, h⟩ := Option.bind_eq_some_iff.mp h
  split_ifs at h
  · cases h
    exact .refl s
  · obtain ⟨start, -, h⟩ := Option.bind_eq_some_iff.mp h
    split_ifs at h
    · obtain ⟨u, hu, h⟩ := Option.bind_eq_some_iff.mp h
      have hstart : SameRefs s (s.startWaiting task a request) := .refl s
      exact (hstart.trans (sameRefs_enqueue hu)).trans (sameRefs_doOperationOnPipe h)
    · cases h
      exact .refl s

theorem sameRefs_unlinkTask (s : PipeState) (task : ℕ) (prev : Option ℕ) (l : List ℕ) :
    SameRefs s (s.unlinkTask task prev l) := by
  induction l generalizing prev with
  | nil => exact .refl s
  | cons b l ih =>
    unfold PipeState.unlinkTask
    split_ifs
    · dsimp only
      split_ifs <;> cases prev <;> exact .refl s
    · exact ih (some b)

theorem sameRefs_pipeStep {act : PipeAction} (hact : act.keepsEnds = true)
    (h : pipeStep s act = some t) : SameRefs s t := by
  cases act with
  | call task a request block => exact sameRefs_executePipeOperation h
  | finish task =>
    obtain ⟨c, -, rfl⟩ := Option.map_eq_some_iff.mp h
    exact .refl s
  | interrupt task =>
    obtain ⟨reads, -, h⟩ := Option.bind_eq_some_iff.mp h
    exact (sameRefs_unlinkTask s task none reads).trans (sameRefs_awakenTask h)
  | copy w => cases hact
  | close w => cases hact

theorem freePipeSharedData_refs {for_write : Bool} (h : s.freePipeSharedData for_write = some t) :
    t.ref_count = s.ref_count - 1 ∧ t.write_count = if for_write then s.write_count - 1 else s.write_count := by
  simp only [PipeState.freePipeSharedData] at h
  split_ifs at h ⊢
  · exact sameRefs_doOperationOnPipe h
  · cases h
    exact ⟨rfl, rfl⟩
  · cases h
    exact ⟨rfl, rfl⟩

end Calls

end SomeOs.Pipe
