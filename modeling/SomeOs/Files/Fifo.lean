import SomeOs.Base.LittleEndian
import SomeOs.Base.Transition
import SomeOs.Files.StringMap
import SomeOs.Pipe.References

/-! # Named pipes

Files that are opened under one name share a pipe. The name is a key of a map, which has a copy of
it; an open file keeps the address of the copy. The name a file was opened under is kept beside what
the source keeps; no operation reads it.
-/
namespace SomeOs.Files
open Pipe Transition OpenTable ByteStore

structure FifoNode where
  data : ℕ
  name : Option ℕ
  for_write : Bool
  opened : CString
  deriving DecidableEq

/-- The map of the names, the strings and the pipes on the heap, and the open files. -/
structure FifoState where
  named_data : StringMap
  strings : Strings
  data : ℕ → Option PipeState
  files : List FifoNode

def sharedText (data : ℕ → Option PipeState) (d : ℕ) : Option (List UInt8) :=
  (data d).map fun p => (intBytes 8 p.ref_count ++ intBytes 8 p.write_count).takeWhile (· != 0)

namespace FifoState

/-- The pipe, the address of the copy of the name, and the state after. A new pipe is at `d` and a
new copy at `k`. -/
def getDataForName (s : FifoState) (name : CString) (for_write : Bool) (d k : ℕ) (buffer : Store)
    (ops : ℕ → WaitingPipeOperation) : Option (ℕ × Option ℕ × FifoState) :=
  let ret := getFromStringMap s.strings s.named_data name
  if ret = 0 then
    let data := Function.update s.data d (some (PipeState.createPipeSharedData for_write buffer ops))
    (putToStringMap (sharedText data) s.strings s.named_data name d k).map fun r =>
      (d, getKeyFromStringMap r.1 r.2 name, { s with named_data := r.2, strings := r.1, data := data })
  else
    (s.data ret).map fun p =>
      (ret, getKeyFromStringMap s.strings s.named_data name,
        { s with data := Function.update s.data ret (some (p.copyPipeSharedData for_write)) })

def decreaseReferenceFor (s : FifoState) (name : Option ℕ) (for_write : Bool) : Option FifoState :=
  (name.bind s.strings).bind fun key =>
  let data := getFromStringMap s.strings s.named_data key
  if data = 0 then some s
  else
    (s.data data).bind fun p =>
    (p.freePipeSharedData for_write).bind fun p =>
    if p.ref_count = 0 then
      let freed := Function.update s.data data none
      (deleteFromStringMap (sharedText freed) s.strings s.named_data key).map fun r =>
        { s with named_data := r.2, strings := r.1, data := freed }
    else some { s with data := Function.update s.data data (some p) }

def createFifoFile (s : FifoState) (name : CString) (for_write : Bool) (d k : ℕ) (buffer : Store)
    (ops : ℕ → WaitingPipeOperation) : Option FifoState :=
  (s.getDataForName name for_write d k buffer ops).map fun r =>
    { r.2.2 with files := r.2.2.files ++ [⟨r.1, r.2.1, for_write, name⟩] }

def fifoNodeFree (s : FifoState) (node : FifoNode) : Option FifoState :=
  (s.decreaseReferenceFor node.name node.for_write).map fun t => { t with files := t.files.erase node }

def operate (s : FifoState) (d : ℕ) (act : PipeAction) : Option FifoState :=
  (s.data d).bind fun p => (pipeStep p act).map fun p => { s with data := Function.update s.data d (some p) }

end FifoState

inductive FifoAction where
  | openFile (name : CString) (for_write : Bool) (d k : ℕ) (buffer : Store) (ops : ℕ → WaitingPipeOperation)
  | close (node : FifoNode)
  | operate (d : ℕ) (act : PipeAction)

def fifoStep (s : FifoState) : FifoAction → Option FifoState
  | .openFile name for_write d k buffer ops => s.createFifoFile name for_write d k buffer ops
  | .close node => s.fifoNodeFree node
  | .operate d act => s.operate d act

/-- What is allocated is not in use, a file that is closed is open, and calls are made on open files. -/
def FifoEnabled (s : FifoState) : FifoAction → Prop
  | .openFile _ _ d k _ _ => 1 < d ∧ s.data d = none ∧ s.strings k = none
  | .close node => node ∈ s.files
  | .operate d act => (∃ f ∈ s.files, f.data = d) ∧ act.keepsEnds = true

def Roomy (s : FifoState) (act : FifoAction) : Prop :=
  FifoEnabled s act ∧
    match act with
    | .openFile name _ _ _ _ _ => getFromStringMap s.strings s.named_data name = 0 → s.named_data.count ≤ 85
    | _ => True

instance decidableFifoEnabled (s : FifoState) : (act : FifoAction) → Decidable (FifoEnabled s act)
  | .openFile _ _ d k _ _ => inferInstanceAs (Decidable (1 < d ∧ s.data d = none ∧ s.strings k = none))
  | .close node => inferInstanceAs (Decidable (node ∈ s.files))
  | .operate d act => inferInstanceAs (Decidable ((∃ f ∈ s.files, f.data = d) ∧ act.keepsEnds = true))

instance decidableRoomy (s : FifoState) : (act : FifoAction) → Decidable (Roomy s act)
  | .openFile name for_write d k buffer ops =>
    inferInstanceAs (Decidable (FifoEnabled s (.openFile name for_write d k buffer ops) ∧
      (getFromStringMap s.strings s.named_data name = 0 → s.named_data.count ≤ 85)))
  | .close node => inferInstanceAs (Decidable (FifoEnabled s (.close node) ∧ True))
  | .operate d act => inferInstanceAs (Decidable (FifoEnabled s (.operate d act) ∧ True))

def noFifos : FifoState := ⟨.initial, fun _ => none, fun _ => none, []⟩

def openWith (files : List FifoNode) (name : CString) : ℕ := files.countP fun f => f.opened == name

def openForWrite (files : List FifoNode) (name : CString) : ℕ := files.countP fun f => f.opened == name && f.for_write

/-- Files share a pipe when they share a name, the pipe counts them, and there are no other pipes,
names and copies of names. -/
structure SharedByName (s : FifoState) : Prop where
  shared : ∀ f ∈ s.files, ∀ g ∈ s.files, f.data = g.data ↔ f.opened = g.opened
  counted : ∀ f ∈ s.files, ∃ p, s.data f.data = some p ∧ p.ref_count = openWith s.files f.opened ∧
    p.write_count = openForWrite s.files f.opened
  named : ∀ f ∈ s.files, ∃ k, f.name = some k ∧ s.strings k = some f.opened
  known : ∀ name, getFromStringMap s.strings s.named_data name ≠ 0 ↔ ∃ f ∈ s.files, f.opened = name
  freed : ∀ d p, s.data d = some p → ∃ f ∈ s.files, f.data = d
  forgotten : ∀ k name, s.strings k = some name → ∃ f ∈ s.files, f.name = some k

/-- The map relates the names of the open files to their pipes, which count them. -/
structure FifoInv (s : FifoState) : Prop where
  wf : s.named_data.Wf s.strings
  capacity : s.named_data.capacity = 0 ∨ s.named_data.capacity = minStringCapacity
  few : s.named_data.count ≤ 86
  files : ∀ f ∈ s.files, ∃ k, f.name = some k ∧ s.named_data.Maps s.strings f.opened k f.data
  pipes : ∀ name k d, s.named_data.Maps s.strings name k d → 1 < d ∧ ∃ p, s.data d = some p ∧
    p.ref_count = openWith s.files name ∧ p.write_count = openForWrite s.files name ∧ 0 < p.ref_count
  apart : ∀ name k name' k' d, s.named_data.Maps s.strings name k d → s.named_data.Maps s.strings name' k' d → name = name'
  data : ∀ d p, s.data d = some p → ∃ name k, s.named_data.Maps s.strings name k d
  copies : ∀ k name, s.strings k = some name → ∃ d, s.named_data.Maps s.strings name k d

section Runs
variable {s t : FifoState} {name : CString} {act : FifoAction}

theorem initial_maps {strings : Strings} {k d : ℕ} : ¬StringMap.initial.Maps strings name k d := by
  rintro ⟨i, hi, -⟩
  exact Nat.not_lt_zero i hi

theorem noFifos_inv : FifoInv noFifos where
  wf := by
    refine ⟨⟨fun i p hi => absurd hi (Nat.not_lt_zero i), fun i j p hi => absurd hi (Nat.not_lt_zero i)⟩, fun p hp => ?_,
      fun p q hp => ?_, rfl⟩
    · obtain ⟨i, hi, -⟩ := hp
      exact absurd hi (Nat.not_lt_zero i)
    · obtain ⟨i, hi, -⟩ := hp
      exact absurd hi (Nat.not_lt_zero i)
  capacity := Or.inl rfl
  few := Nat.zero_le _
  files f hf := by cases hf
  pipes name k d h := absurd h initial_maps
  apart name k name' k' d h := absurd h initial_maps
  data d p h := by cases h
  copies k name h := by cases h

theorem FifoInv.opened (h : FifoInv s) {k d : ℕ} (hmaps : s.named_data.Maps s.strings name k d) :
    ∃ f ∈ s.files, f.opened = name ∧ f.name = some k ∧ f.data = d := by
  obtain ⟨-, p, -, hrefs, -, hpos⟩ := h.pipes name k d hmaps
  obtain ⟨f, hf, hname⟩ := List.countP_pos_iff.mp (hrefs ▸ hpos)
  rw [beq_iff_eq] at hname
  obtain ⟨k', hk', hmaps'⟩ := h.files f hf
  rw [hname] at hmaps'
  obtain ⟨rfl, rfl⟩ := hmaps.unique h.wf hmaps'
  exact ⟨f, hf, hname, hk', rfl⟩

theorem FifoInv.sharedByName (h : FifoInv s) : SharedByName s where
  shared f hf g hg := by
    obtain ⟨k, -, hmaps⟩ := h.files f hf
    obtain ⟨k', -, hmaps'⟩ := h.files g hg
    constructor
    · intro heq
      rw [heq] at hmaps
      exact h.apart _ _ _ _ _ hmaps hmaps'
    · intro heq
      rw [heq] at hmaps
      exact (hmaps.unique h.wf hmaps').2
  counted f hf := by
    obtain ⟨k, -, hmaps⟩ := h.files f hf
    obtain ⟨-, p, hp, hrefs, hwrites, -⟩ := h.pipes _ _ _ hmaps
    exact ⟨p, hp, hrefs, hwrites⟩
  named f hf := by
    obtain ⟨k, hk, i, -, -, hkey, -⟩ := h.files f hf
    exact ⟨k, hk, hkey⟩
  known name := by
    constructor
    · intro hne
      by_contra hno
      refine hne (h.wf.get_absent fun k d hmaps => hno ?_)
      obtain ⟨f, hf, hname, -⟩ := h.opened hmaps
      exact ⟨f, hf, hname⟩
    · rintro ⟨f, hf, rfl⟩
      obtain ⟨k, -, hmaps⟩ := h.files f hf
      rw [(hmaps.get h.wf).1]
      exact Nat.ne_zero_of_lt (h.pipes _ _ _ hmaps).1
  freed d p hp := by
    obtain ⟨name, k, hmaps⟩ := h.data d p hp
    obtain ⟨f, hf, -, -, hd⟩ := h.opened hmaps
    exact ⟨f, hf, hd⟩
  forgotten k name hk := by
    obtain ⟨d, hmaps⟩ := h.copies k name hk
    obtain ⟨f, hf, -, hname, -⟩ := h.opened hmaps
    exact ⟨f, hf, hname⟩

theorem openWith_append (files : List FifoNode) (f : FifoNode) (name : CString) :
    openWith (files ++ [f]) name = openWith files name + if f.opened = name then 1 else 0 := by
  simp [openWith, List.countP_append, List.countP_singleton]

theorem openForWrite_append (files : List FifoNode) (f : FifoNode) (name : CString) :
    openForWrite (files ++ [f]) name = openForWrite files name + if f.opened = name ∧ f.for_write then 1 else 0 := by
  simp [openForWrite, List.countP_append, List.countP_singleton]

theorem openWith_erase {files : List FifoNode} {f : FifoNode} (hf : f ∈ files) (name : CString) :
    openWith files name = openWith (files.erase f) name + if f.opened = name then 1 else 0 := by
  rw [openWith, (List.perm_cons_erase hf).countP_eq, List.countP_cons]
  simp [openWith]

theorem openForWrite_erase {files : List FifoNode} {f : FifoNode} (hf : f ∈ files) (name : CString) :
    openForWrite files name =
      openForWrite (files.erase f) name + if f.opened = name ∧ f.for_write then 1 else 0 := by
  rw [openForWrite, (List.perm_cons_erase hf).countP_eq, List.countP_cons]
  simp [openForWrite]

theorem FifoInv.openWith_eq_zero (h : FifoInv s) (habsent : ∀ k d, ¬s.named_data.Maps s.strings name k d) :
    openWith s.files name = 0 ∧ openForWrite s.files name = 0 := by
  have hne : ∀ f ∈ s.files, f.opened ≠ name := by
    rintro f hf rfl
    obtain ⟨k, -, hmaps⟩ := h.files f hf
    exact habsent k _ hmaps
  constructor
  · exact List.countP_eq_zero.mpr fun f hf => by simp [hne f hf]
  · exact List.countP_eq_zero.mpr fun f hf => by simp [hne f hf]

def FifoState.withNew (s : FifoState) (map : StringMap) (name : CString) (for_write : Bool) (d k : ℕ) (buffer : Store)
    (ops : ℕ → WaitingPipeOperation) : FifoState :=
  ⟨map, Function.update s.strings k (some name),
    Function.update s.data d (some (PipeState.createPipeSharedData for_write buffer ops)),
    s.files ++ [⟨d, getKeyFromStringMap (Function.update s.strings k (some name)) map name, for_write, name⟩]⟩

theorem createFifoFile_new {d k : ℕ} {for_write : Bool} {buffer : Store} {ops : ℕ → WaitingPipeOperation} {map : StringMap}
    (hnew : getFromStringMap s.strings s.named_data name = 0)
    (hput : putToStringMap (sharedText (Function.update s.data d
      (some (PipeState.createPipeSharedData for_write buffer ops)))) s.strings s.named_data name d k =
      some (Function.update s.strings k (some name), map)) :
    s.createFifoFile name for_write d k buffer ops = some (s.withNew map name for_write d k buffer ops) := by
  simp only [FifoState.createFifoFile, FifoState.getDataForName, hnew, if_true, hput, Option.map_some, FifoState.withNew]

/-- A name that was not open gets a pipe of its own. -/
theorem FifoInv.openNew (h : FifoInv s) {d k : ℕ} (hd : 1 < d) (hdata : s.data d = none) (hk : s.strings k = none)
    (hcount : s.named_data.count ≤ 85) (hnew : getFromStringMap s.strings s.named_data name = 0) (for_write : Bool)
    (buffer : Store) (ops : ℕ → WaitingPipeOperation) :
    ∃ map : StringMap, s.createFifoFile name for_write d k buffer ops = some (s.withNew map name for_write d k buffer ops) ∧
      FifoInv (s.withNew map name for_write d k buffer ops) ∧ map.capacity = minStringCapacity ∧
      map.count = s.named_data.count + 1 ∧
      getKeyFromStringMap (Function.update s.strings k (some name)) map name = some k ∧
      ∀ i, map.values i = 0 ∨ map.values i = d ∨ map.values i = s.named_data.values i := by
  have habsent : ∀ k d, ¬s.named_data.Maps s.strings name k d := by
    intro k d hmaps
    rw [(hmaps.get h.wf).1] at hnew
    have := (h.pipes _ _ _ hmaps).1
    omega
  obtain ⟨map, hput, hcap, hw, hcount', hmaps, hvalues⟩ := h.wf.put h.capacity hcount habsent hk d
    (sharedText (Function.update s.data d (some (PipeState.createPipeSharedData for_write buffer ops))))
  have hself := (hmaps name k d).mpr (Or.inl ⟨rfl, rfl, rfl⟩)
  obtain ⟨hzero, hzero'⟩ := h.openWith_eq_zero habsent
  have hapart : ∀ name' k' d', s.named_data.Maps s.strings name' k' d' → name' ≠ name ∧ d' ≠ d := by
    intro name' k' d' hold
    constructor
    · rintro rfl
      exact habsent _ _ hold
    · rintro rfl
      obtain ⟨-, p, hp, -⟩ := h.pipes _ _ _ hold
      rw [hdata] at hp
      cases hp
  have hkey := (hself.get hw).2
  refine ⟨map, createFifoFile_new hnew hput, ⟨hw, Or.inr hcap, ?_, fun f hf => ?_, fun name' k' d' hold => ?_,
    fun name₁ k₁ name₂ k₂ d' h₁ h₂ => ?_, fun d' p hp => ?_, fun k' name' hk' => ?_⟩, hcap, hcount', hkey, hvalues⟩
  · exact hcount'.le.trans (Nat.succ_le_succ hcount)
  · rcases List.mem_append.mp hf with hf | hf
    · obtain ⟨k', hk', hold⟩ := h.files f hf
      exact ⟨k', hk', (hmaps _ _ _).mpr (Or.inr hold)⟩
    · obtain rfl := List.mem_singleton.mp hf
      exact ⟨k, hkey, hself⟩
  · simp only [FifoState.withNew]
    rw [openWith_append, openForWrite_append]
    rcases (hmaps _ _ _).mp hold with ⟨rfl, rfl, rfl⟩ | hold
    · refine ⟨hd, _, Function.update_self _ _ _, ?_, ?_, Nat.one_pos⟩
      · rw [hzero, if_pos rfl]
        rfl
      · rw [hzero']
        cases for_write <;> simp [PipeState.createPipeSharedData]
    · obtain ⟨hname, hne⟩ := hapart _ _ _ hold
      rw [Function.update_of_ne hne, if_neg hname.symm, if_neg fun h => hname h.1.symm]
      exact h.pipes _ _ _ hold
  · rcases (hmaps _ _ _).mp h₁ with ⟨rfl, rfl, rfl⟩ | hold₁ <;>
      rcases (hmaps _ _ _).mp h₂ with ⟨rfl, rfl, hd₂⟩ | hold₂
    · rfl
    · exact absurd rfl (hapart _ _ _ hold₂).2
    · exact absurd hd₂ (hapart _ _ _ hold₁).2
    · exact h.apart _ _ _ _ _ hold₁ hold₂
  · by_cases hdd : d' = d
    · subst hdd
      exact ⟨name, k, hself⟩
    · have hp : Function.update s.data d _ d' = some p := hp
      rw [Function.update_of_ne hdd] at hp
      obtain ⟨name', k', hold⟩ := h.data d' p hp
      exact ⟨name', k', (hmaps _ _ _).mpr (Or.inr hold)⟩
  · by_cases hkk : k' = k
    · subst hkk
      have hk' : Function.update s.strings k' (some name) k' = some name' := hk'
      rw [Function.update_self] at hk'
      obtain rfl := Option.some.inj hk'
      exact ⟨d, hself⟩
    · have hk' : Function.update s.strings k (some name) k' = some name' := hk'
      rw [Function.update_of_ne hkk] at hk'
      obtain ⟨d', hold⟩ := h.copies k' name' hk'
      exact ⟨d', (hmaps _ _ _).mpr (Or.inr hold)⟩

/-- The pipe of a name and the open files are replaced. -/
theorem FifoInv.replace (h : FifoInv s) {k d : ℕ} {p : PipeState} {files : List FifoNode}
    (hmaps : s.named_data.Maps s.strings name k d)
    (hfiles : ∀ f ∈ files, f ∈ s.files ∨ f.name = some k ∧ f.opened = name ∧ f.data = d)
    (hrefs : p.ref_count = openWith files name) (hwrites : p.write_count = openForWrite files name)
    (hpos : 0 < p.ref_count) (hothers : ∀ name', name' ≠ name →
      openWith files name' = openWith s.files name' ∧ openForWrite files name' = openForWrite s.files name') :
    FifoInv { s with data := Function.update s.data d (some p), files := files } where
  wf := h.wf
  capacity := h.capacity
  few := h.few
  files f hf := by
    rcases hfiles f hf with hf | ⟨hname, rfl, rfl⟩
    · exact h.files f hf
    · exact ⟨k, hname, hmaps⟩
  pipes name' k' d' hmaps' := by
    obtain ⟨hd, p', hp', hrefs', hwrites', hpos'⟩ := h.pipes _ _ _ hmaps'
    by_cases hname : name' = name
    · subst hname
      obtain ⟨rfl, rfl⟩ := hmaps.unique h.wf hmaps'
      exact ⟨hd, p, Function.update_self _ _ _, hrefs, hwrites, hpos⟩
    · have hne : d' ≠ d := by
        rintro rfl
        exact hname (h.apart _ _ _ _ _ hmaps' hmaps)
      obtain ⟨hsame, hsame'⟩ := hothers name' hname
      exact ⟨hd, p', (Function.update_of_ne hne _ _).trans hp', hrefs'.trans hsame.symm, hwrites'.trans hsame'.symm, hpos'⟩
  apart := h.apart
  data d' p' hp' := by
    by_cases hne : d' = d
    · subst hne
      exact ⟨name, k, hmaps⟩
    · exact h.data d' p' ((Function.update_of_ne hne _ _).symm.trans hp')
  copies := h.copies

/-- A name that is open gets one file more. -/
theorem FifoInv.openKnown (h : FifoInv s) {d k : ℕ} (hknown : getFromStringMap s.strings s.named_data name ≠ 0)
    (for_write : Bool) (buffer : Store) (ops : ℕ → WaitingPipeOperation) :
    ∃ t, s.createFifoFile name for_write d k buffer ops = some t ∧ FifoInv t := by
  obtain ⟨k₁, d₁, hmaps⟩ : ∃ k d, s.named_data.Maps s.strings name k d := by
    by_contra hno
    push Not at hno
    exact hknown (h.wf.get_absent hno)
  obtain ⟨hd, p, hp, hrefs, hwrites, hpos⟩ := h.pipes _ _ _ hmaps
  obtain ⟨hget, hkey⟩ := hmaps.get h.wf
  refine ⟨{ s with
    data := Function.update s.data d₁ (some (p.copyPipeSharedData for_write))
    files := s.files ++ [⟨d₁, some k₁, for_write, name⟩] }, ?_,
    h.replace hmaps (fun f hf => ?_) ?_ ?_ (Nat.succ_pos _) fun name' hne => ?_⟩
  · rw [hget] at hknown
    simp only [FifoState.createFifoFile, FifoState.getDataForName, hget, if_neg hknown, hp, hkey, Option.map_some]
  · rcases List.mem_append.mp hf with hf | hf
    · exact Or.inl hf
    · obtain rfl := List.mem_singleton.mp hf
      exact Or.inr ⟨rfl, rfl, rfl⟩
  · rw [openWith_append, if_pos rfl, ← hrefs]
    rfl
  · rw [openForWrite_append, ← hwrites]
    cases for_write <;> simp [PipeState.copyPipeSharedData]
  · rw [openWith_append, openForWrite_append, if_neg hne.symm, if_neg fun h => hne h.1.symm]
    exact ⟨rfl, rfl⟩

/-- The last file with a name is closed. -/
theorem FifoInv.closeLast (h : FifoInv s) {f : FifoNode} (hf : f ∈ s.files) {k : ℕ}
    (hmaps : s.named_data.Maps s.strings f.opened k f.data) (hlast : openWith (s.files.erase f) f.opened = 0) :
    ∃ r, deleteFromStringMap (sharedText (Function.update s.data f.data none)) s.strings s.named_data f.opened = some r ∧
      FifoInv ⟨r.2, r.1, Function.update s.data f.data none, s.files.erase f⟩ := by
  have hcap : s.named_data.capacity = minStringCapacity := by
    refine h.capacity.resolve_left fun h0 => ?_
    obtain ⟨i, hi, -⟩ := hmaps
    omega
  obtain ⟨map, hdelete, hcap', hw, hcount, hmaps'⟩ := h.wf.delete hcap h.few hmaps
    (sharedText (Function.update s.data f.data none))
  have hrest : ∀ g ∈ s.files.erase f, g.opened ≠ f.opened := by
    intro g hg heq
    exact List.countP_eq_zero.mp hlast g hg (by simp [heq])
  have hapart : ∀ name k' d, name ≠ f.opened → s.named_data.Maps s.strings name k' d → d ≠ f.data := by
    rintro name k' d hname hold rfl
    exact hname (h.apart _ _ _ _ _ hold hmaps)
  refine ⟨_, hdelete, hw, Or.inr hcap', ?_, fun g hg => ?_, fun name k' d hold => ?_, fun name₁ k₁ name₂ k₂ d h₁ h₂ => ?_,
    fun d p hp => ?_, fun k' name hk' => ?_⟩
  · exact hcount.le.trans ((Nat.sub_le _ _).trans h.few)
  · obtain ⟨k', hk', hold⟩ := h.files g (List.mem_of_mem_erase hg)
    exact ⟨k', hk', (hmaps' _ _ _).mpr ⟨hrest g hg, hold⟩⟩
  · obtain ⟨hname, hold⟩ := (hmaps' _ _ _).mp hold
    obtain ⟨hd, p, hp, hrefs, hwrites, hpos⟩ := h.pipes _ _ _ hold
    rw [openWith_erase hf, if_neg hname.symm] at hrefs
    rw [openForWrite_erase hf, if_neg fun h => hname h.1.symm] at hwrites
    exact ⟨hd, p, (Function.update_of_ne (hapart _ _ _ hname hold) _ _).trans hp, hrefs, hwrites, hpos⟩
  · exact h.apart _ _ _ _ _ ((hmaps' _ _ _).mp h₁).2 ((hmaps' _ _ _).mp h₂).2
  · have hp : Function.update s.data f.data none d = some p := hp
    have hne : d ≠ f.data := by
      rintro rfl
      rw [Function.update_self] at hp
      cases hp
    rw [Function.update_of_ne hne] at hp
    obtain ⟨name, k', hold⟩ := h.data d p hp
    refine ⟨name, k', (hmaps' _ _ _).mpr ⟨?_, hold⟩⟩
    rintro rfl
    exact hne (hold.unique h.wf hmaps).2
  · have hk' : Function.update s.strings k none k' = some name := hk'
    have hne : k' ≠ k := by
      rintro rfl
      rw [Function.update_self] at hk'
      cases hk'
    rw [Function.update_of_ne hne] at hk'
    obtain ⟨d, hold⟩ := h.copies k' name hk'
    refine ⟨d, (hmaps' _ _ _).mpr ⟨?_, hold⟩⟩
    rintro rfl
    exact hne (hold.unique h.wf hmaps).1

/-- A file is closed. -/
theorem FifoInv.close (h : FifoInv s) {f : FifoNode} (hf : f ∈ s.files) (hstep : s.fifoNodeFree f = some t) :
    FifoInv t := by
  obtain ⟨k, hk, hmaps⟩ := h.files f hf
  obtain ⟨hd, p, hp, hrefs, hwrites, -⟩ := h.pipes _ _ _ hmaps
  have hkey : s.strings k = some f.opened := by
    obtain ⟨i, -, -, hkey, -⟩ := hmaps
    exact hkey
  obtain ⟨u, hu, rfl⟩ := Option.map_eq_some_iff.mp hstep
  simp only [FifoState.decreaseReferenceFor, hk, Option.bind_some, hkey, (hmaps.get h.wf).1,
    if_neg (Nat.ne_zero_of_lt hd), hp] at hu
  obtain ⟨p', hfree, hu⟩ := Option.bind_eq_some_iff.mp hu
  obtain ⟨hrefs', hwrites'⟩ := freePipeSharedData_refs hfree
  rw [hrefs, openWith_erase hf, if_pos rfl, Nat.add_sub_cancel] at hrefs'
  split_ifs at hu with hlast
  · obtain ⟨r, hdelete, hinv⟩ := h.closeLast hf hmaps (hrefs'.symm.trans hlast)
    simp only [hdelete, Option.map_some, Option.some.injEq] at hu
    subst hu
    exact hinv
  · cases hu
    refine h.replace hmaps (fun g hg => Or.inl (List.mem_of_mem_erase hg)) hrefs' ?_ (Nat.pos_of_ne_zero hlast) fun name hne => ?_
    · rw [hwrites', hwrites, openForWrite_erase hf]
      cases f.for_write <;> simp
    · rw [openWith_erase hf name, openForWrite_erase hf name, if_neg hne.symm, if_neg fun h => hne h.1.symm]
      exact ⟨rfl, rfl⟩

theorem FifoInv.operate (h : FifoInv s) {d : ℕ} {act : PipeAction} (hact : act.keepsEnds = true)
    (hstep : s.operate d act = some t) : FifoInv t := by
  obtain ⟨p, hp, hstep⟩ := Option.bind_eq_some_iff.mp hstep
  obtain ⟨p', hp', rfl⟩ := Option.map_eq_some_iff.mp hstep
  obtain ⟨name, k, hmaps⟩ := h.data d p hp
  obtain ⟨-, q, hq, hrefs, hwrites, hpos⟩ := h.pipes _ _ _ hmaps
  obtain rfl := Option.some.inj (hp.symm.trans hq)
  obtain ⟨hsame, hsame'⟩ := sameRefs_pipeStep hact hp'
  exact h.replace hmaps (fun f hf => Or.inl hf) (hsame.trans hrefs) (hsame'.trans hwrites) (hsame.symm ▸ hpos)
    fun name' _ => ⟨rfl, rfl⟩

theorem FifoInv.close_isSome (h : FifoInv s) {f : FifoNode} (hf : f ∈ s.files)
    (hfree : ∀ p, s.data f.data = some p → (p.freePipeSharedData f.for_write).isSome) :
    (fifoStep s (.close f)).isSome := by
  obtain ⟨k, hk, hmaps⟩ := h.files f hf
  obtain ⟨hd, p, hp, hrefs, -⟩ := h.pipes _ _ _ hmaps
  have hkey : s.strings k = some f.opened := by
    obtain ⟨i, -, -, hkey, -⟩ := hmaps
    exact hkey
  obtain ⟨q, hq⟩ := Option.isSome_iff_exists.mp (hfree p hp)
  simp only [fifoStep, FifoState.fifoNodeFree, FifoState.decreaseReferenceFor, hk, Option.bind_some, hkey,
    (hmaps.get h.wf).1, if_neg (Nat.ne_zero_of_lt hd), hp, hq, Option.isSome_map]
  split_ifs with hlast
  · rw [(freePipeSharedData_refs hq).1, hrefs, openWith_erase hf, if_pos rfl, Nat.add_sub_cancel] at hlast
    obtain ⟨r, hdelete, -⟩ := h.closeLast hf hmaps hlast
    rw [hdelete]
    rfl
  · rfl

theorem FifoInv.open_isSome (h : FifoInv s) {for_write : Bool} {d k : ℕ} {buffer : Store}
    {ops : ℕ → WaitingPipeOperation} (hok : Roomy s (.openFile name for_write d k buffer ops)) :
    ∃ t, fifoStep s (.openFile name for_write d k buffer ops) = some t ∧ FifoInv t := by
  obtain ⟨⟨hd, hdata, hk⟩, hroom⟩ := hok
  by_cases hnew : getFromStringMap s.strings s.named_data name = 0
  · obtain ⟨map, hopen, hinv, -⟩ := h.openNew hd hdata hk (hroom hnew) hnew for_write buffer ops
    exact ⟨_, hopen, hinv⟩
  · exact h.openKnown hnew for_write buffer ops

theorem FifoInv.step (h : FifoInv s) (hok : Roomy s act) (hstep : fifoStep s act = some t) : FifoInv t := by
  cases act with
  | openFile name for_write d k buffer ops =>
    obtain ⟨u, hu, hinv⟩ := h.open_isSome hok
    obtain rfl := Option.some.inj (hu.symm.trans hstep)
    exact hinv
  | close f => exact h.close hok.1 hstep
  | operate d act => exact h.operate hok.1.2 hstep

/-- In every run in which no name is opened beside 86 others, files share a pipe exactly when
they share a name. Files can be opened, and those be closed whose pipe can. -/
theorem runs_sharedByName {acts : List FifoAction} (hr : Runs fifoStep Roomy noFifos acts s) :
    SharedByName s ∧
      (∀ name for_write d k buffer ops, Roomy s (.openFile name for_write d k buffer ops) →
        (fifoStep s (.openFile name for_write d k buffer ops)).isSome) ∧
      ∀ f ∈ s.files, (∀ p, s.data f.data = some p → (p.freePipeSharedData f.for_write).isSome) →
        (fifoStep s (.close f)).isSome := by
  have h : FifoInv s := hr.invariant (I := FifoInv) (fun _ _ _ h hok hstep => h.step hok hstep) noFifos_inv
  refine ⟨h.sharedByName, fun name for_write d k buffer ops hok => ?_, fun f hf hfree => h.close_isSome hf hfree⟩
  obtain ⟨t, ht, -⟩ := h.open_isSome hok
  exact Option.isSome_iff_exists.mpr ⟨t, ht⟩

end Runs

/-- A new pipe is at `d` and a new copy of the name at `k`. -/
def openFifo (name : CString) (for_write : Bool) (d k : ℕ) : FifoAction :=
  .openFile name for_write d k (fun _ => 0) fun _ => ⟨0, [], 0, 0, 0, none⟩

theorem fifoName_terminated (n : ℕ) : (0 : UInt8) ∉ List.replicate (n + 1) 102 := by simp

def fifoName (n : ℕ) : CString := ⟨List.replicate (n + 1) 102, fifoName_terminated n⟩

theorem fifoName_injective : Function.Injective fifoName := by
  intro i j h
  have hlength := congrArg (fun name => name.bytes.length) h
  simpa [fifoName] using hlength

/-- Two files share a pipe, a third has its own, and one of the two is closed. -/
theorem runs_sharedByName_three_files :
    ∃ s, execOk fifoStep Roomy noFifos [openFifo (fifoName 0) false 2 0, openFifo (fifoName 0) true 3 1,
        openFifo (fifoName 1) true 3 1, .close ⟨2, some 0, false, fifoName 0⟩] = some s ∧
      s.files = [⟨2, some 0, true, fifoName 0⟩, ⟨3, some 1, true, fifoName 1⟩] ∧ SharedByName s := by
  have hsome : (execOk fifoStep Roomy noFifos [openFifo (fifoName 0) false 2 0, openFifo (fifoName 0) true 3 1,
      openFifo (fifoName 1) true 3 1, .close ⟨2, some 0, false, fifoName 0⟩]).map FifoState.files =
      some [⟨2, some 0, true, fifoName 0⟩, ⟨3, some 1, true, fifoName 1⟩] := by
    decide +kernel
  obtain ⟨s, hs, hfiles⟩ := Option.map_eq_some_iff.mp hsome
  exact ⟨s, hs, hfiles, (runs_sharedByName (.of_execOk hs)).1⟩

def manyFifos (n : ℕ) : List FifoAction := (List.range n).map fun i => openFifo (fifoName i) true (i + 2) i

/-- The state after files were opened under different names. -/
structure Filled (n : ℕ) (s : FifoState) : Prop where
  inv : FifoInv s
  capacity : 0 < n → s.named_data.capacity = minStringCapacity
  count : s.named_data.count = n
  values : ∀ i, s.named_data.values i ≠ 0 → s.data (s.named_data.values i) =
    some (PipeState.createPipeSharedData true (fun _ => 0) fun _ => ⟨0, [], 0, 0, 0, none⟩)
  files : s.files = (List.range n).map fun i => ⟨i + 2, some i, true, fifoName i⟩
  data : ∀ d, n + 2 ≤ d → s.data d = none
  strings : ∀ k, n ≤ k → s.strings k = none

theorem Filled.unknown {n : ℕ} {s : FifoState} (h : Filled n s) {name : CString} (hne : ∀ i < n, fifoName i ≠ name) :
    getFromStringMap s.strings s.named_data name = 0 := by
  by_contra hknown
  obtain ⟨f, hf, hname⟩ := (h.inv.sharedByName.known name).mp hknown
  rw [h.files] at hf
  obtain ⟨i, hi, rfl⟩ := List.mem_map.mp hf
  exact hne i (List.mem_range.mp hi) hname

theorem manyFifos_filled {n : ℕ} (hn : n ≤ 86) : ∃ s, Runs fifoStep FifoEnabled noFifos (manyFifos n) s ∧ Filled n s := by
  induction n with
  | zero =>
    exact ⟨noFifos, .nil _, noFifos_inv, fun h => absurd h (lt_irrefl 0), rfl, fun i h => absurd rfl h, rfl,
      fun _ _ => rfl, fun _ _ => rfl⟩
  | succ n ih =>
    obtain ⟨s, hr, h⟩ := ih (by omega)
    have hunknown : getFromStringMap s.strings s.named_data (fifoName n) = 0 :=
      h.unknown fun i hi heq => hi.ne (fifoName_injective heq)
    have hd := h.data (n + 2) le_rfl
    have hk := h.strings n le_rfl
    obtain ⟨map, hopen, hinv, hcap, hcount, hkey, hvalues⟩ := h.inv.openNew (by omega) hd hk (by rw [h.count]; omega)
      hunknown true (fun _ => 0) fun _ => ⟨0, [], 0, 0, 0, none⟩
    have hruns := hr.snoc (a := openFifo (fifoName n) true (n + 2) n) ⟨by omega, hd, hk⟩ hopen
    refine ⟨_, ?_, hinv, fun _ => hcap, ?_, fun i hi => ?_, ?_, fun d hdn => ?_, fun k hkn => ?_⟩
    · rw [manyFifos, List.range_succ, List.map_append]
      exact hruns
    · exact hcount.trans (congrArg (· + 1) h.count)
    · by_cases hnew : map.values i = n + 2
      · exact (congrArg _ hnew).trans (Function.update_self _ _ _)
      · have hi : map.values i ≠ 0 := hi
        have hold := ((hvalues i).resolve_left hi).resolve_left hnew
        refine (Function.update_of_ne hnew _ _).trans ?_
        rw [hold] at hi ⊢
        exact h.values i hi
    · rw [FifoState.withNew, hkey, h.files, List.range_succ, List.map_append]
      rfl
    · exact (Function.update_of_ne (by omega) _ _).trans (h.data d (by omega))
    · exact (Function.update_of_ne (by omega) _ _).trans (h.strings k (by omega))

theorem sharedText_one {data : ℕ → Option PipeState} {d : ℕ} {buffer : Store} {ops : ℕ → WaitingPipeOperation}
    (h : data d = some (PipeState.createPipeSharedData true buffer ops)) : sharedText data d = some [1] := by
  have hbytes : (intBytes 8 1 ++ intBytes 8 1).takeWhile (· != 0) = [1] := by decide
  rw [sharedText, h]
  exact congrArg some hbytes

theorem open_home_empty {t : FifoState} {name : CString} {d k : ℕ}
    (hresize : ∀ text, testForStringResize text t.named_data = some t.named_data)
    (hempty : t.named_data.slots (hashString name.bytes % t.named_data.capacity) = .empty) (hpos : 0 < t.named_data.capacity) :
    ∃ u key, fifoStep t (openFifo name true d k) = some u ∧ u.files = t.files ++ [⟨d, key, true, name⟩] := by
  have hput : ∀ text, putToStringMap text t.strings t.named_data name d k = _ := fun text =>
    putToStringMap_home (hresize text) hempty hpos
  exact ⟨_, _, createFifoFile_new (getFromStringMap_home hempty hpos) (hput _), rfl⟩

theorem otherName_terminated : (0 : UInt8) ∉ [122] := by decide

def otherName : CString := ⟨[122], otherName_terminated⟩

/-- 86 files are opened, another one for which the table is rebuilt, and one under the first name. -/
def rebuiltFifos : List FifoAction :=
  (manyFifos 86 ++ [openFifo otherName true 88 86]) ++ [openFifo (fifoName 0) true 89 87]

def withPipe (data : ℕ → Option PipeState) (d : ℕ) : ℕ → Option PipeState :=
  Function.update data d (some (PipeState.createPipeSharedData true (fun _ => 0) fun _ => ⟨0, [], 0, 0, 0, none⟩))

/-- The table is rebuilt for the 87th name, with all keys from the home of `[1]` on. -/
theorem Filled.rebuilt {s : FifoState} (h : Filled 86 s) :
    ∃ new : StringMap, testForStringResize (sharedText (withPipe s.data 88)) s.named_data = some new ∧
      new.capacity = 192 ∧ new.count = 86 ∧ ∀ idx, idx = 57 ∨ idx = 65 → new.slots idx = .empty := by
  have hcap := h.capacity (by decide)
  have htext : ∀ i, s.named_data.values i ≠ 0 → s.named_data.values i ≠ 1 →
      sharedText (withPipe s.data 88) (s.named_data.values i) = some [1] := by
    intro i hi _
    have hold := h.values i hi
    refine sharedText_one ((Function.update_of_ne ?_ _ _).trans hold)
    intro heq
    rw [heq, h.data 88 le_rfl] at hold
    cases hold
  obtain ⟨new, hrebuild, hnew, hcount, hwindow⟩ := rebuildStringMap_window
    (show s.named_data.capacity < 192 by rw [hcap]; decide) htext
  refine ⟨new, ?_, hnew, hcount.trans h.count, fun idx hidx => ?_⟩
  · rw [← hrebuild, testForStringResize, hcap, h.count]
    rfl
  · by_contra hne
    obtain ⟨j, hj, heq⟩ := hwindow.slots idx hne
    rw [hnew, show hashString [1] % 192 = 75 by decide] at heq
    rw [hcap] at hj
    simp only [minStringCapacity] at hj
    omega

/-- The rebuild takes the counts of the pipes for the names, and the first name is lost. -/
theorem fifos_not_shared :
    ∃ s, Runs fifoStep FifoEnabled noFifos rebuiltFifos s ∧
      (∃ f ∈ s.files, ∃ g ∈ s.files, f.opened = g.opened ∧ f.data ≠ g.data) ∧ ¬SharedByName s := by
  obtain ⟨s, hr, h⟩ := manyFifos_filled le_rfl
  obtain ⟨new, hresize, hnew, hcount, hempty⟩ := h.rebuilt
  have hpos : 0 < new.capacity := by
    rw [hnew]
    decide
  -- the 87th name is put into its home
  have hhome : hashString otherName.bytes % new.capacity = 65 := by
    rw [hnew]
    decide
  have hunknown : getFromStringMap s.strings s.named_data otherName = 0 := h.unknown fun i _ heq => by
    have hbytes : (some 102 : Option UInt8) = some 122 := congrArg (fun name => name.bytes.head?) heq
    exact absurd hbytes (by decide)
  have hput : putToStringMap _ s.strings s.named_data otherName 88 86 = _ :=
    putToStringMap_home hresize (by rw [hhome]; exact hempty _ (Or.inr rfl)) hpos
  have hopen := createFifoFile_new hunknown hput
  rw [hhome] at hopen
  have hr₁ := hr.snoc (a := openFifo otherName true 88 86) ⟨by decide, h.data 88 le_rfl, h.strings 86 le_rfl⟩ hopen
  -- the home of the first name is empty
  generalize ht : s.withNew _ otherName true 88 86 _ _ = t at hr₁
  have hmap : t.named_data = ⟨new.toTable.set 65 (.node 86), Function.update new.values 65 88, new.count + 1⟩ := by
    rw [← ht]
    rfl
  have hcap₁ : t.named_data.capacity = 192 := by
    rw [hmap]
    exact hnew
  have hcount₁ : t.named_data.count = 87 := by
    rw [hmap]
    exact congrArg (· + 1) hcount
  have hempty₁ : t.named_data.slots (hashString (fifoName 0).bytes % t.named_data.capacity) = .empty := by
    rw [hcap₁, show hashString (fifoName 0).bytes % 192 = 57 by decide, hmap]
    exact (set_slots_of_ne (by decide)).trans (hempty _ (Or.inl rfl))
  have hresize₁ : ∀ text, testForStringResize text t.named_data = some t.named_data := fun text => by
    rw [testForStringResize, hcap₁, hcount₁]
    rfl
  obtain ⟨u, key, hopen₁, hfiles⟩ := open_home_empty (d := 89) (k := 87) hresize₁ hempty₁ (by rw [hcap₁]; decide)
  have hd₁ : t.data 89 = none := by
    have hold := h.data 89 (by decide)
    rw [← ht]
    simpa [FifoState.withNew] using hold
  have hk₁ : t.strings 87 = none := by
    have hold := h.strings 87 (by decide)
    rw [← ht]
    simpa [FifoState.withNew] using hold
  have hr₂ := hr₁.snoc (a := openFifo (fifoName 0) true 89 87) ⟨by decide, hd₁, hk₁⟩ hopen₁
  have hfirst : ⟨2, some 0, true, fifoName 0⟩ ∈ u.files := by
    rw [hfiles, ← ht]
    refine List.mem_append_left _ (List.mem_append_left _ ?_)
    rw [h.files]
    exact List.mem_map.mpr ⟨0, by decide, rfl⟩
  have hlast : ⟨89, key, true, fifoName 0⟩ ∈ u.files := by
    rw [hfiles]
    exact List.mem_append_right _ List.mem_cons_self
  refine ⟨u, hr₂, ⟨_, hfirst, _, hlast, rfl, by simp⟩, fun hs => ?_⟩
  exact absurd ((hs.shared _ hfirst _ hlast).mpr rfl) (by simp)

end SomeOs.Files
