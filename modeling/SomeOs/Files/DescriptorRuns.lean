import SomeOs.Base.Transition
import SomeOs.Files.DescriptorMap

/-! # Runs of system calls on descriptors

Every call is an operation on the maps from numbers to files: new numbers are the least that are not
in use, a copy to a number replaces only that, and a fork copies the map. Two requests of `fcntl` are
different: a copy to a least number replaces a descriptor that has it, and an unknown request does
not return the descriptor.
-/
namespace SomeOs.Files
open Vfs Transition
namespace Descriptors

def setEntry (tables : ℕ → ℤ → Option (ℕ × ℕ)) (p : ℕ) (k : ℤ) (v : Option (ℕ × ℕ)) : ℕ → ℤ → Option (ℕ × ℕ) :=
  Function.update tables p (Function.update (tables p) k v)

/-- A state with the given references and maps, in which the descriptors of `s` are what they were. -/
structure Leads (s t : Descriptors) (held opened : Multiset ℕ) (tables : ℕ → ℤ → Option (ℕ × ℕ)) : Prop where
  counted : Counted t held opened
  table : t.table = tables
  descs : ∀ a < s.newDesc, (t.desc a).file = (s.desc a).file ∧ (t.desc a).id = (s.desc a).id ∧ (t.desc a).flags = (s.desc a).flags
  newDesc : s.newDesc ≤ t.newDesc
  newFile : t.newFile = s.newFile
  newProcess : t.newProcess = s.newProcess

section Operations
variable {s t u : Descriptors} {held held' opened opened' : Multiset ℕ} {tables tables' : ℕ → ℤ → Option (ℕ × ℕ)} {p a f : ℕ}
  {fd : ℤ}

theorem Leads.trans (h : Leads s t held opened tables) (h' : Leads t u held' opened' tables') :
    Leads s u held' opened' tables' where
  counted := h'.counted
  table := h'.table
  descs a ha := by
    obtain ⟨h1, h2, h3⟩ := h.descs a ha
    obtain ⟨h1', h2', h3'⟩ := h'.descs a (ha.trans_le h.newDesc)
    exact ⟨h1'.trans h1, h2'.trans h2, h3'.trans h3⟩
  newDesc := h.newDesc.trans h'.newDesc
  newFile := h'.newFile.trans h.newFile
  newProcess := h'.newProcess.trans h.newProcess

theorem leads_same (h : Counted t held opened) (hsame : SameDescs s t) (hfiles : t.files = s.files)
    (hdesc : t.newDesc = s.newDesc) (hfile : t.newFile = s.newFile) (hprocess : t.newProcess = s.newProcess) :
    Leads s t held opened s.table :=
  ⟨h, by funext q; rw [table, hfiles, lookup_congr fun b _ => hsame b]; rfl, fun a _ => hsame a, hdesc.ge, hfile, hprocess⟩

theorem closeDesc_frame (s : Descriptors) (a : ℕ) : SameDescs s (s.vfsFileDescriptorClose a) ∧
    (s.vfsFileDescriptorClose a).files = s.files ∧ (s.vfsFileDescriptorClose a).newDesc = s.newDesc ∧
    (s.vfsFileDescriptorClose a).newFile = s.newFile ∧ (s.vfsFileDescriptorClose a).newProcess = s.newProcess := by
  have hsame := setCount_same s a ((s.desc a).ref_count - 1)
  unfold vfsFileDescriptorClose
  dsimp only
  split_ifs
  · exact ⟨hsame, rfl, rfl, rfl, rfl⟩
  · exact ⟨hsame, rfl, rfl, rfl, rfl⟩

theorem Counted.leads_copyDesc (h : Counted s held opened) (ha : (s.desc a).ref_count ≠ 0) :
    Leads s (s.vfsFileDescriptorCopy a) (a ::ₘ held) opened s.table :=
  leads_same (h.copyDesc ha) (setCount_same s a _) rfl rfl rfl rfl

theorem Counted.leads_closeDesc (h : Counted s (a ::ₘ held) opened) :
    Leads s (s.vfsFileDescriptorClose a) held opened s.table := by
  obtain ⟨hsame, hfiles, hdesc, hfile, hprocess⟩ := closeDesc_frame s a
  exact leads_same h.closeDesc hsame hfiles hdesc hfile hprocess

theorem Counted.leads_copyFile (h : Counted s held opened) (f : ℕ) :
    Leads s (s.vfsFileCopy f) held (f ::ₘ opened) s.table :=
  leads_same (h.copyFile f) (sameDescs_refl s) rfl rfl rfl rfl

theorem Counted.leads_closeFile (h : Counted s held (f ::ₘ opened)) : Leads s (s.vfsFileClose f) held opened s.table :=
  leads_same h.closeFile (sameDescs_refl s) rfl rfl rfl rfl

theorem Counted.leads_unlink (h : Counted s held opened) (ha : a ∈ s.files p) :
    Leads s (s.unlink p a) (a ::ₘ held) opened (setEntry s.table p (s.desc a).id none) := by
  refine ⟨h.unlink ha, ?_, fun _ _ => ⟨rfl, rfl, rfl⟩, le_rfl, rfl, rfl⟩
  funext q
  by_cases hq : q = p
  · subst hq
    have hfiles : (s.unlink q a).files q = (s.files q).erase a := Function.update_self ..
    simp only [setEntry, Function.update_self]
    rw [table, hfiles]
    exact lookup_erase (h.sorted q) ha
  · have hfiles : (s.unlink p a).files q = s.files q := Function.update_of_ne hq ..
    simp only [setEntry, Function.update_of_ne hq]
    rw [table, hfiles]
    rfl

theorem Counted.leads_insertAt (h : Counted s held (f ::ₘ opened)) {n : ℕ} (flags : ℕ) (hp : p < s.newProcess)
    (hf : f < s.newFile) (hfd : 0 ≤ fd) (hbefore : ∀ b ∈ (s.files p).take n, (s.desc b).id < fd)
    (hafter : ∀ b ∈ (s.files p).drop n, fd < (s.desc b).id) :
    Leads s (s.insertAt p n fd flags f) held opened (setEntry s.table p fd (some (f, flags))) := by
  have hne : ∀ q, ∀ b ∈ s.files q, b ≠ s.newDesc := fun q b hb => (h.descNew b (h.listed_ne ⟨q, hb⟩)).ne
  have hdesc : ∀ b, b ≠ s.newDesc → (s.insertAt p n fd flags f).desc b = s.desc b := fun b hb => Function.update_of_ne hb ..
  have hself : (s.insertAt p n fd flags f).desc s.newDesc = ⟨f, fd, flags, 1⟩ := Function.update_self ..
  refine ⟨h.insertAt flags hp hf hfd hbefore hafter, ?_, fun b hb => ?_, Nat.le_succ _, rfl, rfl⟩
  · funext q
    by_cases hq : q = p
    · subst hq
      have hfiles : (s.insertAt q n fd flags f).files q = (s.files q).take n ++ s.newDesc :: (s.files q).drop n :=
        Function.update_self ..
      have hold : (s.insertAt q n fd flags f).lookup (s.files q) = s.lookup (s.files q) :=
        lookup_congr_desc fun b hb => hdesc b (hne q b hb)
      have hinsert := @lookup_insert (s.insertAt q n fd flags f) ((s.files q).take n) ((s.files q).drop n) s.newDesc
        fun b hb => by
          rw [hself, hdesc b (hne q b (List.mem_of_mem_take hb))]
          exact hbefore b hb
      rw [List.take_append_drop, hold, hself] at hinsert
      simp only [setEntry, Function.update_self]
      rw [table, hfiles, hinsert]
      rfl
    · simp only [setEntry, Function.update_of_ne hq]
      have hfiles : (s.insertAt p n fd flags f).files q = s.files q := Function.update_of_ne hq ..
      rw [table, hfiles, lookup_congr_desc fun b hb => hdesc b (hne q b hb)]
      rfl
  · rw [hdesc b hb.ne]
    exact ⟨rfl, rfl, rfl⟩

theorem Counted.leads_setFlags (h : Counted s held opened) (ha : a ∈ s.files p) (flags : ℕ) :
    Counted { s with desc := Function.update s.desc a { s.desc a with flags := flags } } held opened ∧
    table { s with desc := Function.update s.desc a { s.desc a with flags := flags } } =
      setEntry s.table p (s.desc a).id (some ((s.desc a).file, flags)) := by
  refine ⟨h.setFlags a flags, ?_⟩
  set t : Descriptors := { s with desc := Function.update s.desc a { s.desc a with flags := flags } } with ht
  have hdesc : ∀ b, b ≠ a → t.desc b = s.desc b := fun b hb => Function.update_of_ne hb ..
  have hself : t.desc a = { s.desc a with flags := flags } := Function.update_self ..
  funext q
  by_cases hq : q = p
  · subst hq
    obtain ⟨l₁, l₂, hl⟩ := List.append_of_mem ha
    have hsorted := h.sorted q
    rw [hl, List.pairwise_append] at hsorted
    have hbefore : ∀ b ∈ l₁, (s.desc b).id < (s.desc a).id := fun b hb => hsorted.2.2 b hb a List.mem_cons_self
    have hnodup := h.nodup q
    rw [hl, List.nodup_middle, List.nodup_cons] at hnodup
    have hrest : t.lookup (l₁ ++ l₂) = s.lookup (l₁ ++ l₂) :=
      lookup_congr_desc fun b hb => hdesc b fun heq => hnodup.1 (heq ▸ hb)
    have hbefore' : ∀ b ∈ l₁, (t.desc b).id < (t.desc a).id := by
      intro b hb
      rw [hself, hdesc b fun heq => hnodup.1 (heq ▸ List.mem_append_left _ hb)]
      exact hbefore b hb
    have hold : s.lookup (l₁ ++ a :: l₂) = _ := lookup_insert hbefore
    have hnew : t.lookup (l₁ ++ a :: l₂) = _ := lookup_insert hbefore'
    rw [hrest, hself] at hnew
    simp only [setEntry, Function.update_self]
    have hfiles : t.files q = l₁ ++ a :: l₂ := hl
    rw [table, table, hfiles, hnew, hold, Function.update_idem]
  · simp only [setEntry, Function.update_of_ne hq]
    exact lookup_congr_desc fun b hb => hdesc b fun heq => hq (h.owner q p a (heq ▸ hb) ha)

theorem Counted.getFileDescriptorUnsafe_eq (h : Counted s held opened) (p : ℕ) (fd : ℤ) :
    s.getFileDescriptorUnsafe p fd = (s.files p).find? fun a => (s.desc a).id = fd :=
  dropWhile_find (h.sorted p)

theorem Counted.getFileDescriptorUnsafe_cases (h : Counted s held opened) (p : ℕ) (fd : ℤ) :
    (s.getFileDescriptorUnsafe p fd = none ∧ s.table p fd = none) ∨
    ∃ a ∈ s.files p, (s.desc a).id = fd ∧ s.getFileDescriptorUnsafe p fd = some a ∧
      s.table p fd = some ((s.desc a).file, (s.desc a).flags) := by
  rw [h.getFileDescriptorUnsafe_eq, table, lookup]
  cases hfind : (s.files p).find? fun a => (s.desc a).id = fd with
  | none => exact Or.inl ⟨rfl, rfl⟩
  | some a => exact Or.inr ⟨a, List.mem_of_find?_eq_some hfind, by simpa using List.find?_some hfind, rfl, rfl⟩

theorem Counted.leads_closeFileDescriptor (h : Counted s held opened) (p : ℕ) (fd : ℤ) :
    Leads s (s.closeFileDescriptor p fd) held opened (setEntry s.table p fd none) := by
  unfold closeFileDescriptor
  rcases h.getFileDescriptorUnsafe_cases p fd with ⟨hget, hnone⟩ | ⟨a, ha, hid, hget, -⟩
  · rw [hget]
    refine ⟨h, ?_, fun _ _ => ⟨rfl, rfl, rfl⟩, le_rfl, rfl, rfl⟩
    rw [setEntry, ← hnone, Function.update_eq_self, Function.update_eq_self]
  · rw [hget]
    have hunlink := h.leads_unlink ha
    have hclose := hunlink.counted.leads_closeDesc
    rw [hunlink.table, hid] at hclose
    exact hunlink.trans hclose

theorem setEntry_idem (tables : ℕ → ℤ → Option (ℕ × ℕ)) (p : ℕ) (k : ℤ) (v w : Option (ℕ × ℕ)) :
    setEntry (setEntry tables p k v) p k w = setEntry tables p k w := by
  simp [setEntry]

/-- A descriptor gets the least number, or the number asked for. -/
theorem Counted.putNewFileDescriptor (h : Counted s held opened) (hp : p < s.newProcess) (hf : f < s.newFile) (fd : ℤ)
    (flags : ℕ) (replace : Bool) :
    ∃ k t, s.putNewFileDescriptor p fd flags f replace = (k, t) ∧
      Leads s t held opened (setEntry s.table p k (some (f, flags))) ∧
      if fd < 0 then IsLeast {k | 0 ≤ k ∧ s.table p k = none} k else k = fd := by
  have hcopy := h.leads_copyFile f
  unfold Descriptors.putNewFileDescriptor
  dsimp only
  by_cases hneg : fd < 0
  · rw [if_pos hneg]
    obtain ⟨hleast, hbefore, hafter⟩ := skipTaken_spec (hcopy.counted.sorted p) (hcopy.counted.nonneg p)
    have hinsert := hcopy.counted.leads_insertAt flags hp hf hleast.1.1 hbefore hafter
    rw [hcopy.table] at hinsert
    refine ⟨_, _, rfl, hcopy.trans hinsert, ?_⟩
    rw [if_pos hneg]
    have htable := congrFun hcopy.table p
    rw [table] at htable
    rwa [htable] at hleast
  · rw [if_neg hneg]
    have hclose := hcopy.counted.leads_closeFileDescriptor p fd
    have hboth := hcopy.trans hclose
    generalize (s.vfsFileCopy f).closeFileDescriptor p fd = t at hclose hboth
    have hfree : ∀ b ∈ t.files p, (t.desc b).id ≠ fd := by
      rw [← lookup_eq_none]
      have := congrFun (congrFun hclose.table p) fd
      rw [setEntry, Function.update_self, Function.update_self] at this
      exact this
    obtain ⟨hbefore, hafter⟩ := takeWhile_place (hclose.counted.sorted p) hfree
    have hinsert := hclose.counted.leads_insertAt flags (hboth.newProcess ▸ hp) (hboth.newFile ▸ hf)
      (not_lt.mp hneg) hbefore hafter
    rw [hclose.table, hcopy.table, setEntry_idem] at hinsert
    refine ⟨fd, _, ?_, hboth.trans hinsert, by rw [if_neg hneg]⟩
    -- no descriptor with the number is left, so the place is between two others
    split
    · next b hb => rw [if_neg (hfree b (List.mem_of_getElem? hb))]
    · rfl

end Operations

end Descriptors
end SomeOs.Files
