import SomeOs.Files.Descriptors

/-! # Reference counts of descriptors and files

A descriptor is referred to by the list it is in and by whoever has borrowed it, and a file by the
descriptors in memory and by whoever has just opened it. Each of the few edits that system calls are
made of moves one reference.
-/
namespace SomeOs.Files
namespace Descriptors

def Listed (s : Descriptors) (a : ℕ) : Prop := ∃ p, a ∈ s.files p

def live (s : Descriptors) (f : ℕ) : Set ℕ := {a | (s.desc a).ref_count ≠ 0 ∧ (s.desc a).file = f}

open Classical in
noncomputable def listRefs (s : Descriptors) (a : ℕ) : ℕ := if s.Listed a then 1 else 0

/-- The lists are sorted and apart from each other, and the counts are those of the lists, of the
descriptors that are held and of the files that are held. -/
structure Counted (s : Descriptors) (held opened : Multiset ℕ) : Prop where
  sorted : ∀ p, (s.files p).Pairwise fun a b => (s.desc a).id < (s.desc b).id
  nonneg : ∀ p, ∀ a ∈ s.files p, 0 ≤ (s.desc a).id
  owner : ∀ p q a, a ∈ s.files p → a ∈ s.files q → p = q
  descCount : ∀ a, (s.desc a).ref_count = s.listRefs a + held.count a
  fileCount : ∀ f, (s.file f).ref_count = (s.live f).ncard + opened.count f
  descNew : ∀ a, (s.desc a).ref_count ≠ 0 → a < s.newDesc
  fileNew : ∀ a, (s.desc a).ref_count ≠ 0 → (s.desc a).file < s.newFile
  processNew : ∀ p, s.newProcess ≤ p → s.files p = []

def SameDescs (s t : Descriptors) : Prop :=
  ∀ a, (t.desc a).file = (s.desc a).file ∧ (t.desc a).id = (s.desc a).id ∧ (t.desc a).flags = (s.desc a).flags

section Counts
variable {s : Descriptors} {held opened : Multiset ℕ} {p a f : ℕ}

theorem listRefs_listed (ha : s.Listed a) : s.listRefs a = 1 := if_pos ha

theorem listRefs_unlisted (ha : ¬s.Listed a) : s.listRefs a = 0 := if_neg ha

theorem listRefs_congr {t : Descriptors} (h : t.Listed a ↔ s.Listed a) : t.listRefs a = s.listRefs a := by
  by_cases ha : s.Listed a
  · rw [listRefs_listed ha, listRefs_listed (h.mpr ha)]
  · rw [listRefs_unlisted ha, listRefs_unlisted (mt h.mp ha)]

theorem Counted.listed_ne (h : Counted s held opened) (ha : s.Listed a) : (s.desc a).ref_count ≠ 0 := by
  rw [h.descCount a, listRefs_listed ha]
  omega

theorem Counted.nodup (h : Counted s held opened) (p : ℕ) : (s.files p).Nodup :=
  (h.sorted p).imp fun hlt heq => absurd (heq ▸ hlt) (lt_irrefl _)

theorem sorted_inj {l : List ℕ} (h : l.Pairwise fun a b => (s.desc a).id < (s.desc b).id) {b : ℕ} (ha : a ∈ l) (hb : b ∈ l)
    (hid : (s.desc a).id = (s.desc b).id) : a = b := by
  have hnodup : (l.map fun a => (s.desc a).id).Nodup := List.pairwise_map.mpr (h.imp ne_of_lt)
  exact List.inj_on_of_nodup_map hnodup ha hb hid

theorem Counted.live_finite (h : Counted s held opened) (f : ℕ) : (s.live f).Finite :=
  (Set.finite_Iio s.newDesc).subset fun a ha => h.descNew a ha.1

/-- A change of counts that leaves the lists and the contents of the descriptors. -/
theorem Counted.recount (h : Counted s held opened) {t : Descriptors} {held' opened' : Multiset ℕ}
    (hsame : ∀ a, (t.desc a).file = (s.desc a).file ∧ (t.desc a).id = (s.desc a).id) (hfiles : t.files = s.files)
    (hdesc : t.newDesc = s.newDesc) (hfile : t.newFile = s.newFile)
    (hprocess : t.newProcess = s.newProcess) (hheld : ∀ a, (t.desc a).ref_count + held.count a =
      (s.desc a).ref_count + held'.count a)
    (hlive : ∀ a, (t.desc a).ref_count ≠ 0 → (s.desc a).ref_count ≠ 0)
    (hopened : ∀ f, (t.file f).ref_count = (t.live f).ncard + opened'.count f) : Counted t held' opened' where
  sorted p := by
    rw [hfiles]
    exact (h.sorted p).imp fun {a b} hab => by rwa [(hsame a).2, (hsame b).2]
  nonneg p a ha := by
    rw [hfiles] at ha
    rw [(hsame a).2]
    exact h.nonneg p a ha
  owner := by
    rw [hfiles]
    exact h.owner
  descCount a := by
    have hcount := h.descCount a
    have hmoved := hheld a
    have hlisted : t.Listed a ↔ s.Listed a := by unfold Listed; rw [hfiles]
    rw [listRefs_congr hlisted]
    omega
  fileCount := hopened
  descNew a ha := hdesc ▸ h.descNew a (hlive a ha)
  fileNew a ha := by
    rw [(hsame a).1, hfile]
    exact h.fileNew a (hlive a ha)
  processNew p hp := by
    rw [hfiles]
    exact h.processNew p (hprocess ▸ hp)

theorem sameDescs_refl (s : Descriptors) : SameDescs s s := fun _ => ⟨rfl, rfl, rfl⟩

theorem SameDescs.trans {t u : Descriptors} (h : SameDescs s t) (h' : SameDescs t u) : SameDescs s u :=
  fun a => ⟨(h' a).1.trans (h a).1, (h' a).2.1.trans (h a).2.1, (h' a).2.2.trans (h a).2.2⟩

def setCount (s : Descriptors) (a n : ℕ) : Descriptors :=
  { s with desc := Function.update s.desc a { s.desc a with ref_count := n } }

theorem setCount_same (s : Descriptors) (a n : ℕ) : SameDescs s (s.setCount a n) := by
  intro b
  by_cases hb : b = a
  · subst hb
    simp [setCount]
  · simp [setCount, hb]

theorem setCount_count (s : Descriptors) (a n b : ℕ) :
    ((s.setCount a n).desc b).ref_count = if b = a then n else (s.desc b).ref_count := by
  by_cases hb : b = a
  · subst hb
    simp [setCount]
  · simp [setCount, hb]

theorem setCount_places (s : Descriptors) (a n b : ℕ) :
    ((s.setCount a n).desc b).file = (s.desc b).file ∧ ((s.setCount a n).desc b).id = (s.desc b).id :=
  ⟨(setCount_same s a n b).1, (setCount_same s a n b).2.1⟩

theorem Counted.copyDesc (h : Counted s held opened) (ha : (s.desc a).ref_count ≠ 0) :
    Counted (s.vfsFileDescriptorCopy a) (a ::ₘ held) opened := by
  change Counted (s.setCount a ((s.desc a).ref_count + 1)) _ _
  have hlive : ∀ f, (s.setCount a ((s.desc a).ref_count + 1)).live f = s.live f := by
    intro f
    ext b
    simp only [live, Set.mem_ofPred_eq, setCount_count, (setCount_same s a _ b).1]
    split_ifs with hb
    · simp [hb, ha]
    · rfl
  refine h.recount (setCount_places s a _) rfl rfl rfl rfl (fun b => ?_) (fun b hb => ?_) fun f => ?_
  · rw [setCount_count, Multiset.count_cons]
    split_ifs with hb
    · rw [hb]
      omega
    · omega
  · rw [setCount_count] at hb
    split_ifs at hb with hba
    · rwa [hba]
    · exact hb
  · rw [hlive]
    exact h.fileCount f

theorem Counted.copyFile (h : Counted s held opened) (f : ℕ) : Counted (s.vfsFileCopy f) held (f ::ₘ opened) := by
  refine h.recount (fun _ => ⟨rfl, rfl⟩) rfl rfl rfl rfl (fun _ => rfl) (fun _ h => h) fun g => ?_
  rw [Multiset.count_cons]
  have := h.fileCount g
  by_cases hg : g = f
  · subst hg
    simp only [vfsFileCopy, Function.update_self, if_true]
    change _ = (s.live g).ncard + _
    omega
  · simp only [vfsFileCopy, Function.update_of_ne hg, if_neg hg]
    exact this

theorem Counted.closeFile (h : Counted s held (f ::ₘ opened)) : Counted (s.vfsFileClose f) held opened := by
  refine h.recount (fun _ => ⟨rfl, rfl⟩) rfl rfl rfl rfl (fun _ => rfl) (fun _ h => h) fun g => ?_
  have := h.fileCount g
  rw [Multiset.count_cons] at this
  by_cases hg : g = f
  · subst hg
    simp only [vfsFileClose, Function.update_self]
    rw [if_pos rfl] at this
    change _ = (s.live g).ncard + _
    omega
  · simp only [vfsFileClose, Function.update_of_ne hg]
    rw [if_neg hg] at this
    exact this

/-- The last reference to a descriptor leaves the reference to its file behind. -/
theorem Counted.closeDesc (h : Counted s (a ::ₘ held) opened) : Counted (s.vfsFileDescriptorClose a) held opened := by
  have hcount := h.descCount a
  rw [Multiset.count_cons_self] at hcount
  have hheld : ∀ b, ((s.setCount a ((s.desc a).ref_count - 1)).desc b).ref_count + (a ::ₘ held).count b =
      (s.desc b).ref_count + held.count b := by
    intro b
    rw [setCount_count, Multiset.count_cons]
    split_ifs with hb
    · rw [hb]
      omega
    · rfl
  have hlive : ∀ b, ((s.setCount a ((s.desc a).ref_count - 1)).desc b).ref_count ≠ 0 → (s.desc b).ref_count ≠ 0 := by
    intro b hb
    rw [setCount_count] at hb
    split_ifs at hb with hba
    · rw [hba]
      omega
    · exact hb
  have hclosed : s.vfsFileDescriptorClose a =
      if (s.desc a).ref_count - 1 = 0 then (s.setCount a ((s.desc a).ref_count - 1)).vfsFileClose (s.desc a).file
      else s.setCount a ((s.desc a).ref_count - 1) := by
    simp [vfsFileDescriptorClose, setCount]
  rw [hclosed]
  split_ifs with hlast
  · refine Counted.closeFile (h.recount (setCount_places s a _) rfl rfl rfl rfl hheld hlive fun f => ?_)
    have hmem : ∀ b, b ∈ (s.setCount a ((s.desc a).ref_count - 1)).live f ↔ b ∈ s.live f ∧ b ≠ a := by
      intro b
      simp only [live, Set.mem_ofPred_eq, setCount_count, (setCount_same s a _ b).1]
      split_ifs with hb
      · simp [hb, hlast]
      · simp [hb]
    have hdiff : (s.setCount a ((s.desc a).ref_count - 1)).live f = s.live f \ {a} := by
      ext b
      simpa using hmem b
    rw [hdiff, Multiset.count_cons]
    have hfile := h.fileCount f
    change (s.file f).ref_count = _
    by_cases hf : f = (s.desc a).file
    · have hin : a ∈ s.live f := ⟨by omega, hf.symm⟩
      have := Set.ncard_sdiff_singleton_add_one hin (h.live_finite f)
      rw [if_pos hf]
      omega
    · have hout : a ∉ s.live f := fun hin => hf hin.2.symm
      rw [if_neg hf, Set.sdiff_singleton_eq_self hout]
      exact hfile
  · refine h.recount (setCount_places s a _) rfl rfl rfl rfl hheld hlive fun f => ?_
    have hsame : (s.setCount a ((s.desc a).ref_count - 1)).live f = s.live f := by
      ext b
      simp only [live, Set.mem_ofPred_eq, setCount_count, (setCount_same s a _ b).1]
      split_ifs with hb
      · rw [hb]
        have h0 : (s.desc a).ref_count ≠ 0 := by omega
        simp [h0, hlast]
      · rfl
    rw [hsame]
    exact h.fileCount f

theorem Counted.setFlags (h : Counted s held opened) (a flags : ℕ) :
    Counted { s with desc := Function.update s.desc a { s.desc a with flags := flags } } held opened := by
  have hdesc : ∀ b, (Function.update s.desc a { s.desc a with flags := flags } b).file = (s.desc b).file ∧
      (Function.update s.desc a { s.desc a with flags := flags } b).id = (s.desc b).id ∧
      (Function.update s.desc a { s.desc a with flags := flags } b).ref_count = (s.desc b).ref_count := by
    intro b
    by_cases hb : b = a
    · subst hb
      simp
    · simp [hb]
  refine h.recount (fun b => ⟨(hdesc b).1, (hdesc b).2.1⟩) rfl rfl rfl rfl (fun b => ?_) (fun b hb => ?_) fun f => ?_
  · rw [(hdesc b).2.2]
  · rwa [(hdesc b).2.2] at hb
  · have hlive : live { s with desc := Function.update s.desc a { s.desc a with flags := flags } } f = s.live f := by
      ext b
      simp only [live, Set.mem_ofPred_eq, hdesc]
    rw [hlive]
    exact h.fileCount f

theorem Counted.setFileFlags (h : Counted s held opened) (f flags : ℕ) :
    Counted { s with file := Function.update s.file f { s.file f with flags := flags } } held opened := by
  refine h.recount (fun _ => ⟨rfl, rfl⟩) rfl rfl rfl rfl (fun _ => rfl) (fun _ h => h) fun g => ?_
  by_cases hg : g = f
  · subst hg
    simp only [Function.update_self]
    exact h.fileCount g
  · simp only [Function.update_of_ne hg]
    exact h.fileCount g

/-- Descriptors that leave the list of a process are held instead. -/
theorem Counted.remove (h : Counted s held opened) {kept removed : List ℕ} (hperm : (s.files p).Perm (removed ++ kept))
    (hsub : kept.Sublist (s.files p)) :
    Counted { s with files := Function.update s.files p kept } (↑removed + held) opened := by
  have hnodup := h.nodup p
  rw [hperm.nodup_iff, List.nodup_append'] at hnodup
  have hmem : ∀ q b, b ∈ Function.update s.files p kept q ↔ b ∈ s.files q ∧ b ∉ removed := by
    intro q b
    by_cases hq : q = p
    · subst hq
      rw [Function.update_self, hperm.mem_iff, List.mem_append]
      exact ⟨fun hb => ⟨Or.inr hb, fun hr => hnodup.2.2 hr hb⟩, fun hb => hb.1.resolve_left hb.2⟩
    · rw [Function.update_of_ne hq]
      refine ⟨fun hb => ⟨hb, fun hr => hq (h.owner q p b hb ?_)⟩, fun hb => hb.1⟩
      rw [hperm.mem_iff]
      exact List.mem_append_left _ hr
  constructor
  case sorted =>
    intro q
    by_cases hq : q = p
    · subst hq
      dsimp only
      rw [Function.update_self]
      exact (h.sorted q).sublist hsub
    · dsimp only
      rw [Function.update_of_ne hq]
      exact h.sorted q
  case nonneg => exact fun q b hb => h.nonneg q b ((hmem q b).mp hb).1
  case owner => exact fun q r b hq hr => h.owner q r b ((hmem q b).mp hq).1 ((hmem r b).mp hr).1
  case descCount =>
    intro b
    have hlisted : Listed { s with files := Function.update s.files p kept } b ↔ s.Listed b ∧ b ∉ removed := by
      simp only [Listed, hmem, exists_and_right]
    refine (h.descCount b).trans ?_
    rw [Multiset.count_add, Multiset.coe_count]
    by_cases hb : b ∈ removed
    · have hin : s.Listed b := ⟨p, hperm.mem_iff.mpr (List.mem_append_left _ hb)⟩
      rw [listRefs_listed hin, listRefs_unlisted fun hl => (hlisted.mp hl).2 hb, List.count_eq_one_of_mem hnodup.1 hb]
      omega
    · rw [List.count_eq_zero_of_not_mem hb, listRefs_congr (hlisted.trans (and_iff_left hb)), Nat.zero_add]
  case fileCount => exact h.fileCount
  case descNew => exact h.descNew
  case fileNew => exact h.fileNew
  case processNew =>
    intro q hq
    exact List.eq_nil_iff_forall_not_mem.mpr fun b hb => by simpa [h.processNew q hq] using ((hmem q b).mp hb).1

theorem Counted.unlink (h : Counted s held opened) (ha : a ∈ s.files p) : Counted (s.unlink p a) (a ::ₘ held) opened :=
  have hperm : (s.files p).Perm ([a] ++ (s.files p).erase a) := List.perm_cons_erase ha
  h.remove hperm List.erase_sublist

/-- A new descriptor takes over a reference to its file. Its place is behind the smaller numbers. -/
theorem Counted.insertAt (h : Counted s held (f ::ₘ opened)) {n : ℕ} {fd : ℤ} (flags : ℕ) (hp : p < s.newProcess)
    (hf : f < s.newFile) (hfd : 0 ≤ fd) (hbefore : ∀ b ∈ (s.files p).take n, (s.desc b).id < fd)
    (hafter : ∀ b ∈ (s.files p).drop n, fd < (s.desc b).id) : Counted (s.insertAt p n fd flags f) held opened := by
  have hold : ∀ b, s.Listed b → b ≠ s.newDesc := fun b hb => ne_of_lt (h.descNew b (h.listed_ne hb))
  have hfresh : ¬s.Listed s.newDesc := fun hl => hold _ hl rfl
  have hcount : (s.desc s.newDesc).ref_count = 0 := by
    by_contra hne
    exact lt_irrefl _ (h.descNew _ hne)
  have hmem : ∀ q b, b ∈ (s.insertAt p n fd flags f).files q ↔ b ∈ s.files q ∨ q = p ∧ b = s.newDesc := by
    intro q b
    by_cases hq : q = p
    · subst hq
      conv_rhs => rw [← List.take_append_drop n (s.files q)]
      simp only [Descriptors.insertAt, Function.update_self, List.mem_append, List.mem_cons, true_and]
      tauto
    · simp [Descriptors.insertAt, hq]
  have hdesc : ∀ b, b ≠ s.newDesc → (s.insertAt p n fd flags f).desc b = s.desc b := fun b hb => Function.update_of_ne hb ..
  have hself : (s.insertAt p n fd flags f).desc s.newDesc = ⟨f, fd, flags, 1⟩ := Function.update_self ..
  have hlisted : ∀ b, (s.insertAt p n fd flags f).Listed b ↔ s.Listed b ∨ b = s.newDesc := by
    intro b
    simp only [Listed, hmem, exists_or, exists_eq_left]
  have hids : ∀ q, ∀ b ∈ s.files q, ((s.insertAt p n fd flags f).desc b).id = (s.desc b).id :=
    fun q b hb => by rw [hdesc b (hold b ⟨q, hb⟩)]
  constructor
  case sorted =>
    intro q
    by_cases hq : q = p
    · subst hq
      have hsorted := h.sorted q
      rw [← List.take_append_drop n (s.files q), List.pairwise_append] at hsorted
      obtain ⟨htake, hdrop, hacross⟩ := hsorted
      have hin : ∀ b ∈ (s.files q).take n, b ∈ s.files q := fun b hb => List.mem_of_mem_take hb
      have hin' : ∀ b ∈ (s.files q).drop n, b ∈ s.files q := fun b hb => List.mem_of_mem_drop hb
      simp only [Descriptors.insertAt, Function.update_self]
      rw [List.pairwise_append, List.pairwise_cons]
      refine ⟨htake.imp_of_mem ?_, ⟨fun b hb => ?_, hdrop.imp_of_mem ?_⟩, fun b hb c hc => ?_⟩
      · intro b c hb hc hlt
        change ((s.insertAt q n fd flags f).desc b).id < ((s.insertAt q n fd flags f).desc c).id
        rwa [hids q b (hin b hb), hids q c (hin c hc)]
      · change ((s.insertAt q n fd flags f).desc s.newDesc).id < ((s.insertAt q n fd flags f).desc b).id
        rw [hself, hids q b (hin' b hb)]
        exact hafter b hb
      · intro b c hb hc hlt
        change ((s.insertAt q n fd flags f).desc b).id < ((s.insertAt q n fd flags f).desc c).id
        rwa [hids q b (hin' b hb), hids q c (hin' c hc)]
      · change ((s.insertAt q n fd flags f).desc b).id < ((s.insertAt q n fd flags f).desc c).id
        rw [hids q b (hin b hb)]
        rcases List.mem_cons.mp hc with rfl | hc
        · rw [hself]
          exact hbefore b hb
        · rw [hids q c (hin' c hc)]
          exact hacross b hb c hc
    · have hfiles : (s.insertAt p n fd flags f).files q = s.files q := Function.update_of_ne hq ..
      rw [hfiles]
      exact (h.sorted q).imp_of_mem fun {b c} hb hc hlt => by rwa [hids q b hb, hids q c hc]
  case nonneg =>
    intro q b hb
    rcases (hmem q b).mp hb with hb | ⟨-, rfl⟩
    · rw [hids q b hb]
      exact h.nonneg q b hb
    · rw [hself]
      exact hfd
  case owner =>
    intro q r b hq hr
    rcases (hmem q b).mp hq with hq | ⟨rfl, rfl⟩
    · rcases (hmem r b).mp hr with hr | ⟨-, rfl⟩
      · exact h.owner q r b hq hr
      · exact absurd ⟨q, hq⟩ hfresh
    · rcases (hmem r s.newDesc).mp hr with hr | ⟨rfl, -⟩
      · exact absurd ⟨r, hr⟩ hfresh
      · rfl
  case descCount =>
    intro b
    have hcounted := h.descCount b
    by_cases hb : b = s.newDesc
    · subst hb
      rw [hself, listRefs_listed ((hlisted _).mpr (Or.inr rfl))]
      change 1 = 1 + held.count s.newDesc
      omega
    · rw [hdesc b hb, hcounted, listRefs_congr ((hlisted b).trans (or_iff_left hb))]
  case fileCount =>
    intro g
    have hlive : (s.insertAt p n fd flags f).live g = if g = f then insert s.newDesc (s.live g) else s.live g := by
      ext b
      by_cases hb : b = s.newDesc
      · subst hb
        by_cases hg : g = f
        · rw [if_pos hg]
          exact iff_of_true ⟨by simp [hself], by simp [hself, hg]⟩ (Set.mem_insert _ _)
        · rw [if_neg hg]
          exact iff_of_false (fun hl => hg (by simpa [hself] using hl.2.symm)) fun hl => hl.1 hcount
      · have hkept : b ∈ (s.insertAt p n fd flags f).live g ↔ b ∈ s.live g := by
          simp only [live, Set.mem_ofPred_eq, hdesc b hb]
        rw [hkept]
        split_ifs
        · rw [Set.mem_insert_iff, or_iff_right hb]
        · rfl
    have hfile := h.fileCount g
    rw [Multiset.count_cons] at hfile
    change (s.file g).ref_count = _
    rw [hlive]
    split_ifs at hfile ⊢ with hg
    · rw [Set.ncard_insert_of_notMem (fun hl => hl.1 hcount) (h.live_finite g)]
      omega
    · exact hfile
  case descNew =>
    intro b hb
    by_cases hnew : b = s.newDesc
    · exact hnew ▸ Nat.lt_succ_self _
    · rw [hdesc b hnew] at hb
      exact Nat.lt_succ_of_lt (h.descNew b hb)
  case fileNew =>
    intro b hb
    by_cases hnew : b = s.newDesc
    · subst hnew
      rw [hself]
      exact hf
    · rw [hdesc b hnew] at hb ⊢
      exact h.fileNew b hb
  case processNew =>
    intro q hq
    have hne : q ≠ p := by
      rintro rfl
      exact absurd hp (not_lt.mpr hq)
    exact (Function.update_of_ne hne ..).trans (h.processNew q hq)

end Counts

end Descriptors
end SomeOs.Files
