import SomeOs.Vfs.Access

/-! # The ids of a process

A process has a real, an effective and a saved id for its user and for its group. User 0
may set them to anything, others only exchange the ids that they have. Ids are 32-bit values
that are compared for equality; the largest one is -1.
-/
namespace SomeOs.Process
open Vfs (ErrorKind)

abbrev Id := BitVec 32

structure Ids where
  real : Id
  effective : Id
  saved : Id
  deriving DecidableEq

structure Credentials where
  user : Ids
  group : Ids
  deriving DecidableEq

section Changes
variable (privileged : Prop) [Decidable privileged] (ids : Ids)

def setId (new : Id) : Except ErrorKind Ids :=
  if privileged then .ok ⟨new, new, new⟩
  else if ids.real = new ∨ ids.saved = new then .ok { ids with effective := new }
  else .error .EPERM

def setEffective (new : Id) : Except ErrorKind Ids :=
  if privileged ∨ ids.real = new ∨ ids.saved = new then .ok { ids with effective := new } else .error .EPERM

/-- Ids that are -1 are not changed. The saved id becomes the effective one if that differs from the
real one, or if the real one is set. -/
def setRealEffective (newReal newEffective : Id) : Except ErrorKind Ids :=
  if privileged ∨ (newReal = -1 ∧ (newEffective = -1 ∨ ids.real = newEffective ∨ ids.saved = newEffective)) then
    let ids := if newEffective ≠ -1 then { ids with effective := newEffective } else ids
    let ids := if newReal ≠ -1 then { ids with real := newReal } else ids
    .ok (if newReal ≠ -1 ∨ (newEffective ≠ -1 ∧ newEffective ≠ ids.real) then { ids with saved := ids.effective }
      else ids)
  else .error .EPERM

end Changes

namespace Credentials

def setUid (c : Credentials) (new : Id) : Except ErrorKind Credentials :=
  (setId (c.user.effective = 0) c.user new).map ({ c with user := · })

def setGid (c : Credentials) (new : Id) : Except ErrorKind Credentials :=
  (setId (c.user.effective = 0) c.group new).map ({ c with group := · })

def setEUid (c : Credentials) (new : Id) : Except ErrorKind Credentials :=
  (setEffective (c.user.effective = 0) c.user new).map ({ c with user := · })

def setEGid (c : Credentials) (new : Id) : Except ErrorKind Credentials :=
  (setEffective (c.user.effective = 0) c.group new).map ({ c with group := · })

def setREUid (c : Credentials) (newReal newEffective : Id) : Except ErrorKind Credentials :=
  (setRealEffective (c.user.effective = 0) c.user newReal newEffective).map ({ c with user := · })

/-- Other than the calls before, this one asks for the effective group to be 0. -/
def setREGid (c : Credentials) (newReal newEffective : Id) : Except ErrorKind Credentials :=
  (setRealEffective (c.group.effective = 0) c.group newReal newEffective).map ({ c with group := · })

end Credentials

inductive IdCall where
  | setUid (new : Id)
  | setGid (new : Id)
  | setEUid (new : Id)
  | setEGid (new : Id)
  | setREUid (newReal newEffective : Id)
  | setREGid (newReal newEffective : Id)

def IdCall.result (c : Credentials) : IdCall → Except ErrorKind Credentials
  | .setUid new => c.setUid new
  | .setGid new => c.setGid new
  | .setEUid new => c.setEUid new
  | .setEGid new => c.setEGid new
  | .setREUid newReal newEffective => c.setREUid newReal newEffective
  | .setREGid newReal newEffective => c.setREGid newReal newEffective

def idStep (c : Credentials) (call : IdCall) : Credentials :=
  match call.result c with
  | .ok d => d
  | .error _ => c

def Ids.toList (ids : Ids) : List Id := [ids.real, ids.effective, ids.saved]

def Ids.Nonzero (ids : Ids) : Prop := ∀ id ∈ ids.toList, id ≠ 0

instance (ids : Ids) : Decidable ids.Nonzero := List.decidableBAll (· ≠ 0) ids.toList

/-- The ids `new` are all among `old`. -/
def Ids.Within (old new : Ids) : Prop := ∀ id ∈ new.toList, id ∈ old.toList

instance (old new : Ids) : Decidable (old.Within new) := List.decidableBAll (· ∈ old.toList) new.toList

def Credentials.Within (old new : Credentials) : Prop := old.user.Within new.user ∧ old.group.Within new.group

instance (old new : Credentials) : Decidable (old.Within new) :=
  inferInstanceAs (Decidable (old.user.Within new.user ∧ old.group.Within new.group))

section Ids
variable {ids ids' ids'' : Ids} {new newReal newEffective : Id}

theorem Ids.Within.refl (ids : Ids) : ids.Within ids := fun _ h => h

theorem Ids.Within.trans (h : ids.Within ids') (h' : ids'.Within ids'') : ids.Within ids'' :=
  fun id hid => h id (h' id hid)

theorem Ids.Within.nonzero (h : ids.Within ids') (hids : ids.Nonzero) : ids'.Nonzero :=
  fun id hid => hids id (h id hid)

theorem within_of_mem (hreal : ids'.real ∈ ids.toList) (heffective : ids'.effective ∈ ids.toList)
    (hsaved : ids'.saved ∈ ids.toList) : ids.Within ids' := by
  intro id hid
  simp only [Ids.toList, List.mem_cons, List.not_mem_nil, or_false] at hid
  rcases hid with rfl | rfl | rfl
  · exact hreal
  · exact heffective
  · exact hsaved

theorem Ids.real_mem (ids : Ids) : ids.real ∈ ids.toList := by simp [Ids.toList]
theorem Ids.effective_mem (ids : Ids) : ids.effective ∈ ids.toList := by simp [Ids.toList]
theorem Ids.saved_mem (ids : Ids) : ids.saved ∈ ids.toList := by simp [Ids.toList]

theorem mem_of_own (h : ids.real = new ∨ ids.saved = new) : new ∈ ids.toList := by
  rcases h with rfl | rfl
  · exact ids.real_mem
  · exact ids.saved_mem

variable {privileged : Prop} [Decidable privileged]

theorem setId_within (hp : ¬privileged) (h : setId privileged ids new = .ok ids') : ids.Within ids' := by
  unfold setId at h
  rw [if_neg hp] at h
  split_ifs at h with hown
  cases h
  exact within_of_mem ids.real_mem (mem_of_own hown) ids.saved_mem

theorem setEffective_within (hp : ¬privileged) (h : setEffective privileged ids new = .ok ids') : ids.Within ids' := by
  unfold setEffective at h
  split_ifs at h with hown
  cases h
  exact within_of_mem ids.real_mem (mem_of_own (hown.resolve_left hp)) ids.saved_mem

theorem setRealEffective_within (hp : ¬privileged)
    (h : setRealEffective privileged ids newReal newEffective = .ok ids') : ids.Within ids' := by
  unfold setRealEffective at h
  by_cases hown : newReal = -1 ∧ (newEffective = -1 ∨ ids.real = newEffective ∨ ids.saved = newEffective)
  · rw [if_pos (Or.inr hown)] at h
    obtain ⟨rfl, hown⟩ := hown
    by_cases hkeep : newEffective = -1
    · subst hkeep
      simp only [ne_eq, not_true_eq_false, ↓reduceIte, false_and, or_self, Except.ok.injEq] at h
      subst h
      exact Ids.Within.refl ids
    · have hmem : newEffective ∈ ids.toList := mem_of_own (hown.resolve_left hkeep)
      simp only [ne_eq, not_true_eq_false, ↓reduceIte, hkeep, not_false_eq_true, true_and, false_or,
        Except.ok.injEq] at h
      subst h
      split_ifs
      · exact within_of_mem ids.real_mem hmem ids.saved_mem
      · exact within_of_mem ids.real_mem hmem hmem
  · rw [if_neg (not_or.mpr ⟨hp, hown⟩)] at h
    cases h

end Ids

section Steps
variable {c d : Credentials} {call : IdCall}

theorem exists_of_map_ok {α β : Type} {x : Except ErrorKind α} {f : α → β} {b : β} (h : x.map f = .ok b) :
    ∃ a, x = .ok a ∧ f a = b := by
  cases x with
  | error e => cases h
  | ok a => exact ⟨a, rfl, Except.ok.inj h⟩

/-- Without the rights of user 0, a call changes the ids of the user within themselves, or those of
the group unless the effective group is 0. -/
theorem result_cases (hc : c.user.effective ≠ 0) (h : call.result c = .ok d) :
    (∃ ids, c.user.Within ids ∧ d = { c with user := ids }) ∨
      ∃ ids, (c.group.effective ≠ 0 → c.group.Within ids) ∧ d = { c with group := ids } := by
  cases call with
  | setUid new =>
    obtain ⟨ids, hids, rfl⟩ := exists_of_map_ok h
    exact Or.inl ⟨ids, setId_within hc hids, rfl⟩
  | setGid new =>
    obtain ⟨ids, hids, rfl⟩ := exists_of_map_ok h
    exact Or.inr ⟨ids, fun _ => setId_within hc hids, rfl⟩
  | setEUid new =>
    obtain ⟨ids, hids, rfl⟩ := exists_of_map_ok h
    exact Or.inl ⟨ids, setEffective_within hc hids, rfl⟩
  | setEGid new =>
    obtain ⟨ids, hids, rfl⟩ := exists_of_map_ok h
    exact Or.inr ⟨ids, fun _ => setEffective_within hc hids, rfl⟩
  | setREUid newReal newEffective =>
    obtain ⟨ids, hids, rfl⟩ := exists_of_map_ok h
    exact Or.inl ⟨ids, setRealEffective_within hc hids, rfl⟩
  | setREGid newReal newEffective =>
    obtain ⟨ids, hids, rfl⟩ := exists_of_map_ok h
    exact Or.inr ⟨ids, fun hgroup => setRealEffective_within hgroup hids, rfl⟩

theorem idStep_user (hc : c.user.effective ≠ 0) : c.user.Within (idStep c call).user := by
  unfold idStep
  cases h : call.result c with
  | error e => exact Ids.Within.refl c.user
  | ok d =>
    rcases result_cases hc h with ⟨ids, hids, rfl⟩ | ⟨ids, -, rfl⟩
    · exact hids
    · exact Ids.Within.refl c.user

theorem idStep_group (hc : c.user.effective ≠ 0) (hgroup : c.group.effective ≠ 0) :
    c.group.Within (idStep c call).group := by
  unfold idStep
  cases h : call.result c with
  | error e => exact Ids.Within.refl c.group
  | ok d =>
    rcases result_cases hc h with ⟨ids, -, rfl⟩ | ⟨ids, hids, rfl⟩
    · exact Ids.Within.refl c.group
    · exact hids hgroup

/-- The ids of an unprivileged user stay over every sequence of calls, and so do those of the group
when none of them is 0. -/
theorem foldl_within (c : Credentials) (calls : List IdCall) (hc : c.user.Nonzero) :
    c.user.Within (calls.foldl idStep c).user ∧ (c.group.Nonzero → c.group.Within (calls.foldl idStep c).group) := by
  induction calls generalizing c with
  | nil => exact ⟨Ids.Within.refl c.user, fun _ => Ids.Within.refl c.group⟩
  | cons call calls ih =>
    have heuid : c.user.effective ≠ 0 := hc _ c.user.effective_mem
    have huser : c.user.Within (idStep c call).user := idStep_user heuid
    obtain ⟨ih₁, ih₂⟩ := ih (idStep c call) (huser.nonzero hc)
    refine ⟨huser.trans ih₁, fun hzero => ?_⟩
    have hgroup : c.group.Within (idStep c call).group := idStep_group heuid (hzero _ c.group.effective_mem)
    exact hgroup.trans (ih₂ (hgroup.nonzero hzero))

theorem group_zero_reaches (hzero : ¬c.group.Nonzero) {new : Id} (hnew : new ≠ -1) :
    (idStep (idStep c (.setEGid 0)) (.setREGid (-1) new)).group.effective = new := by
  have hegid : (idStep c (.setEGid 0)).group.effective = 0 := by
    by_cases hown : c.user.effective = 0 ∨ c.group.real = 0 ∨ c.group.saved = 0
    · simp only [idStep, IdCall.result, Credentials.setEGid, setEffective, if_pos hown, Except.map]
    · have hother : c.group.effective = 0 := by
        by_contra heffective
        refine hzero fun id hid => ?_
        simp only [Ids.toList, List.mem_cons, List.not_mem_nil, or_false] at hid
        rcases hid with rfl | rfl | rfl
        · exact fun h => hown (Or.inr (Or.inl h))
        · exact heffective
        · exact fun h => hown (Or.inr (Or.inr h))
      simpa only [idStep, IdCall.result, Credentials.setEGid, setEffective, if_neg hown, Except.map] using hother
  generalize idStep c (.setEGid 0) = d at hegid
  simp only [idStep, IdCall.result, Credentials.setREGid, setRealEffective, hegid, true_or, ↓reduceIte, Except.map,
    ne_eq, hnew, not_false_eq_true, not_true_eq_false, false_or, true_and]
  split_ifs
  · rfl
  · rfl

theorem exists_fresh {l : List Id} (hl : l.length < 4) : ∃ new : Id, new ≠ -1 ∧ new ∉ l := by
  by_contra hnone
  have hsub : [1, 2, 3, 4] ⊆ l := by
    intro new hmem
    by_contra hnew
    refine hnone ⟨new, ?_, hnew⟩
    rintro rfl
    exact absurd hmem (by decide)
  have := (List.subperm_of_subset (by decide) hsub).length_le
  rw [List.length_cons, List.length_cons, List.length_cons, List.length_singleton] at this
  omega

/-- An unprivileged process keeps to its ids over all sequences of calls exactly when none of its
group ids is 0. -/
theorem ids_kept_iff (c : Credentials) (hc : c.user.Nonzero) :
    (∀ calls : List IdCall, c.Within (calls.foldl idStep c)) ↔ c.group.Nonzero := by
  constructor
  · intro hall
    by_contra hzero
    obtain ⟨new, hnew, hfresh⟩ := exists_fresh (show c.group.toList.length < 4 by simp [Ids.toList])
    have hwithin := (hall [.setEGid 0, .setREGid (-1) new]).2
    refine hfresh (hwithin new ?_)
    have := Ids.effective_mem (idStep (idStep c (.setEGid 0)) (.setREGid (-1) new)).group
    rwa [group_zero_reaches hzero hnew] at this
  · intro hgroup calls
    obtain ⟨h₁, h₂⟩ := foldl_within c calls hc
    exact ⟨h₁, h₂ hgroup⟩

end Steps

theorem ids_kept_user :
    Credentials.Within ⟨⟨5, 5, 5⟩, ⟨5, 6, 6⟩⟩
      ([.setREGid (-1) 5, .setREGid 0 0, .setEGid 6, .setUid 0].foldl idStep ⟨⟨5, 5, 5⟩, ⟨5, 6, 6⟩⟩) :=
  (ids_kept_iff ⟨⟨5, 5, 5⟩, ⟨5, 6, 6⟩⟩ (by decide)).mpr (by decide) _

/-- A user in group 0 gets the group 7. -/
theorem ids_gained :
    ¬Credentials.Within ⟨⟨5, 5, 5⟩, ⟨0, 0, 0⟩⟩ ([.setREGid 7 7].foldl idStep ⟨⟨5, 5, 5⟩, ⟨0, 0, 0⟩⟩) := by
  decide

end SomeOs.Process
