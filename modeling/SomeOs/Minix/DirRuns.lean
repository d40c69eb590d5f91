import SomeOs.Minix.DirMap

/-! # Sequences of directory operations

A run of links, unlinks, lookups and reads of a directory whose names fit in a record
and whose truncations are safe. In every state of it the directory is a finite map
from names to inode numbers, which the next operation reads or changes at one name.
-/
namespace SomeOs.Minix
open ByteStore Transition

structure DirState where
  disk : Store
  node : MinixVfsNode

inductive DirOp where
  | link (name : List UInt8) (entry_node : ℕ)
  | unlink (name : List UInt8)
  | lookup (name : List UInt8)
  | readdir (offset length : ℕ)

/-- One operation on the directory. There is no state after a division by zero. -/
def dirStep (sb : Minix3Superblock) (s : DirState) : DirOp → Option DirState
  | .link name entry_node =>
    let r := minixLink sb s.disk s.node name entry_node
    some ⟨r.disk, r.node⟩
  | .unlink name =>
    let r := minixUnlink sb s.disk s.node name
    if r.outcome = .divideByZero then none else some ⟨r.disk, r.node⟩
  | .lookup _ => some s
  | .readdir _ _ => some s

namespace DirState

def lookup (sb : Minix3Superblock) (s : DirState) (name : List UInt8) : Except Outcome ℕ :=
  minixLookup sb s.disk s.node name

def scan (sb : Minix3Superblock) (s : DirState) : List Entry :=
  readdirScan sb s.disk s.node (s.node.stat.size / dirEntrySize + 1) 0

/-- The names of a link fit in a record, and an unlink that removes a record
truncates safely. -/
def Fits (sb : Minix3Superblock) (s : DirState) : DirOp → Prop
  | .link name entry_node => 0 ∉ name ∧ name.length < nameSize ∧ entry_node ≠ 0 ∧ entry_node < 2 ^ 32 ∧
    s.node.stat.size + dirEntrySize ≤ maxFileSize
  | .unlink name => (∃ i, s.lookup sb name = .ok i) → DirTruncSize (s.node.stat.size - dirEntrySize)
  | _ => True

structure IsMap (sb : Minix3Superblock) (s : DirState) : Prop where
  names : ((s.scan sb).map Prod.snd).Nodup
  mem_scan : ∀ i name, (i, name) ∈ s.scan sb ↔ s.lookup sb name = .ok i
  absent : ∀ name, (∀ i, (i, name) ∉ s.scan sb) → s.lookup sb name = .error (.error .ENOENT)

/-- What an operation does to the map. -/
def MapStep (sb : Minix3Superblock) (s t : DirState) : DirOp → Prop
  | .link name entry_node =>
    ((minixLink sb s.disk s.node name entry_node).outcome = .success ∧ t.lookup sb name = .ok entry_node ∧
      ∀ other ≠ name, t.lookup sb other = s.lookup sb other) ∨
    ((minixLink sb s.disk s.node name entry_node).outcome = .error .ENOSPC ∧
      ∀ other, t.lookup sb other = s.lookup sb other)
  | .unlink name =>
    ((minixUnlink sb s.disk s.node name).outcome = .success ∧ (∃ i, s.lookup sb name = .ok i) ∧
      t.lookup sb name = .error (.error .ENOENT) ∧ ∀ other ≠ name, t.lookup sb other = s.lookup sb other) ∨
    ((minixUnlink sb s.disk s.node name).outcome = .error .ENOENT ∧
      s.lookup sb name = .error (.error .ENOENT) ∧ t = s)
  | _ => t = s

section Spec
variable {sb : Minix3Superblock} {s t : DirState} {entries entries' : List Entry} {name : List UInt8}

theorem lookup_spec (hd : Dir sb s.disk s.node entries) (name : List UInt8) :
    (∃ i, (i, name) ∈ entries ∧ s.lookup sb name = .ok i) ∨
      ((∀ i, (i, name) ∉ entries) ∧ s.lookup sb name = .error (.error .ENOENT)) := by
  unfold lookup minixLookup
  rcases minixInternalLookup_spec hd name with ⟨k, e, hk, rfl, hlook⟩ | ⟨hall, hlook⟩
  · rw [hlook]
    exact Or.inl ⟨e.1, List.mem_of_getElem? hk, rfl⟩
  · rw [hlook]
    exact Or.inr ⟨fun i hi => hall _ hi rfl, rfl⟩

theorem lookup_eq_ok (hd : Dir sb s.disk s.node entries) {i : ℕ} :
    s.lookup sb name = .ok i ↔ (i, name) ∈ entries := by
  constructor
  · intro h
    rcases lookup_spec hd name with ⟨j, hj, hlook⟩ | ⟨_, hlook⟩
    · obtain rfl : i = j := by simpa [h] using hlook
      exact hj
    · rw [h] at hlook
      cases hlook
  · intro h
    rcases lookup_spec hd name with ⟨j, hj, hlook⟩ | ⟨hall, _⟩
    · obtain ⟨m, hm⟩ := List.mem_iff_getElem?.mp h
      obtain ⟨n, hn⟩ := List.mem_iff_getElem?.mp hj
      obtain rfl := index_eq hd.names hm hn rfl
      rw [hm] at hn
      cases hn
      exact hlook
    · exact absurd h (hall i)

theorem lookup_eq_error (hd : Dir sb s.disk s.node entries) (h : ∀ i, (i, name) ∉ entries) :
    s.lookup sb name = .error (.error .ENOENT) := by
  rcases lookup_spec hd name with ⟨i, hi, _⟩ | ⟨_, hlook⟩
  · exact absurd hi (h i)
  · exact hlook

theorem lookup_congr (hd : Dir sb s.disk s.node entries) (hd' : Dir sb t.disk t.node entries')
    (h : ∀ i, (i, name) ∈ entries' ↔ (i, name) ∈ entries) : t.lookup sb name = s.lookup sb name := by
  rcases lookup_spec hd name with ⟨i, hi, hlook⟩ | ⟨hall, hlook⟩
  · rw [hlook, lookup_eq_ok hd']
    exact (h i).mpr hi
  · rw [hlook]
    exact lookup_eq_error hd' (fun i hi => hall i ((h i).mp hi))

theorem scan_eq (hd : Dir sb s.disk s.node entries) : s.scan sb = entries := by
  have hlen : s.node.stat.size / dirEntrySize = entries.length := by
    rw [hd.size]
    exact Nat.mul_div_cancel_left _ (by decide)
  have h := readdirScan_spec hd.toDirFile (k := 0) (n := entries.length + 1) (Nat.zero_le _) (by omega)
  rw [scan, hlen]
  simpa using h

theorem isMap (hd : Dir sb s.disk s.node entries) : s.IsMap sb where
  names := by
    rw [scan_eq hd]
    exact hd.names
  mem_scan := by
    intro i name
    rw [scan_eq hd, lookup_eq_ok hd]
  absent := by
    intro name h
    rw [scan_eq hd] at h
    exact lookup_eq_error hd h

/-- One operation keeps the directory a directory and changes the map as it should. -/
theorem dirStep_spec (hl : Layout sb) (hle : sb.zones ≤ 2 ^ 32) (hd : Dir sb s.disk s.node entries)
    {op : DirOp} (hok : s.Fits sb op) :
    ∃ t, dirStep sb s op = some t ∧ (∃ entries', Dir sb t.disk t.node entries') ∧ s.MapStep sb t op := by
  cases op with
  | link name entry_node =>
    obtain ⟨hterm, hfits, hpos, hlt, hmax⟩ := hok
    refine ⟨_, rfl, ?_⟩
    rcases minixLink_spec hl hle hd hpos hlt hfits hterm hmax with ⟨hout, entries', hlinked, hdir⟩ | ⟨hout, hdir⟩
    · refine ⟨⟨entries', hdir⟩, Or.inl ⟨hout, ?_, fun other hne => ?_⟩⟩
      · rw [lookup_eq_ok hdir, hlinked, if_pos rfl]
      · exact lookup_congr hd hdir (fun i => by rw [hlinked, if_neg hne])
    · exact ⟨⟨entries, hdir⟩, Or.inr ⟨hout, fun other => lookup_congr hd hdir (fun i => Iff.rfl)⟩⟩
  | unlink name =>
    rcases minixInternalLookup_spec hd name with ⟨k, e, hk, hname, hlook⟩ | ⟨hall, hlook⟩
    · have hfound : s.lookup sb name = .ok e.1 := by
        simp only [lookup, minixLookup, hlook]
      obtain ⟨hout, entries', hrest, hdir⟩ :=
        minixUnlink_found hl hle hd hk hname hlook (hok ⟨_, hfound⟩)
      refine ⟨⟨(minixUnlink sb s.disk s.node name).disk, (minixUnlink sb s.disk s.node name).node⟩, ?_,
        ⟨entries', hdir⟩, Or.inl ⟨hout, ⟨_, hfound⟩, ?_, fun other hne => ?_⟩⟩
      · simp [dirStep, hout]
      · exact lookup_eq_error hdir (fun i hi => ((hrest _).mp hi).1 rfl)
      · exact lookup_congr hd hdir (fun i => by rw [hrest]; exact and_iff_right hne)
    · have hres : minixUnlink sb s.disk s.node name = ⟨.error .ENOENT, s.node, s.disk⟩ := by
        simp only [minixUnlink, hlook]
      have hnone : s.lookup sb name = .error (.error .ENOENT) := by
        simp only [lookup, minixLookup, hlook]
      refine ⟨s, by simp [dirStep, hres], ⟨entries, hd⟩, Or.inr ⟨by rw [hres], hnone, rfl⟩⟩
  | lookup name => exact ⟨s, rfl, ⟨entries, hd⟩, rfl⟩
  | readdir offset length => exact ⟨s, rfl, ⟨entries, hd⟩, rfl⟩

theorem runs_dir {ops : List DirOp} (hl : Layout sb) (hle : sb.zones ≤ 2 ^ 32)
    (hd : Dir sb s.disk s.node entries) (hr : Runs (dirStep sb) (Fits sb) s ops t) :
    ∃ entries', Dir sb t.disk t.node entries' := by
  refine hr.invariant (I := fun s => ∃ entries, Dir sb s.disk s.node entries) ?_ ⟨entries, hd⟩
  rintro s op t ⟨entries, hd⟩ hok hstep
  obtain ⟨t', hstep', hdir, _⟩ := dirStep_spec hl hle hd hok
  rw [hstep] at hstep'
  cases hstep'
  exact hdir

/-- In every state of a run the directory is a finite map, and every further
operation does what it should to it. -/
theorem runs_isMap {ops : List DirOp} (hl : Layout sb) (hle : sb.zones ≤ 2 ^ 32)
    (hd : Dir sb s.disk s.node entries) (hr : Runs (dirStep sb) (Fits sb) s ops t) :
    t.IsMap sb ∧ ∀ op, t.Fits sb op → ∃ u, dirStep sb t op = some u ∧ t.MapStep sb u op := by
  obtain ⟨entries', hdir⟩ := runs_dir hl hle hd hr
  refine ⟨isMap hdir, fun op hok => ?_⟩
  obtain ⟨u, hstep, _, hmap⟩ := dirStep_spec hl hle hdir hok
  exact ⟨u, hstep, hmap⟩

end Spec

def empty : DirState := ⟨smallDisk, emptyNode 1⟩

theorem empty_dir : Dir smallSb empty.disk empty.node [] where
  wf := by
    refine ⟨?_, by decide, ?_⟩
    · intro node hn
      obtain rfl : node = emptyNode 1 := by simpa [empty] using hn
      exact ⟨by decide, by decide, rfl⟩
    · have hz : FsState.zones ⟨empty.disk, [empty.node]⟩ = [] := by decide
      rw [hz]
      exact ⟨List.nodup_nil, by simp⟩
  stocked := by
    have hz : fileZones empty.disk empty.node = [] := by decide
    rw [hz]
    exact ⟨⟨List.nodup_nil, by simp⟩, by simp, by decide⟩
  size := rfl
  range := Nat.zero_le _
  holds := by
    intro k e hk
    simp at hk
  names := List.nodup_nil

instance (length : ℕ) : Decidable (DirTruncSize length) := inferInstanceAs (Decidable (_ ∨ _))

/-- A name is linked and unlinked, and two others are linked. -/
theorem runs_isMap_short_name : ∃ t, Runs (dirStep smallSb) (Fits smallSb) empty
    [.link [97] 2, .unlink [97], .link [98] 3, .link [99] 2] t ∧
    t.IsMap smallSb ∧ t.lookup smallSb [98] = .ok 3 ∧ ∀ op, t.Fits smallSb op → ∃ u, dirStep smallSb t op = some u ∧
      t.MapStep smallSb u op := by
  have hrun : (dirStep smallSb empty (.link [97] 2)).any (fun s => decide (DirTruncSize (s.node.stat.size - dirEntrySize)) &&
      (dirStep smallSb s (.unlink [97])).any (fun u => decide (u.node.stat.size + dirEntrySize ≤ maxFileSize) &&
        (dirStep smallSb u (.link [98] 3)).any (fun v => decide (v.node.stat.size + dirEntrySize ≤ maxFileSize) &&
          (dirStep smallSb v (.link [99] 2)).any (fun t => decide (t.lookup smallSb [98] = .ok 3))))) = true := by decide
  obtain ⟨s, hs, hrun⟩ := (Option.any_eq_true _ _).mp hrun
  obtain ⟨htrunc, hrun⟩ := (Bool.and_eq_true _ _).mp hrun
  obtain ⟨u, hu, hrun⟩ := (Option.any_eq_true _ _).mp hrun
  obtain ⟨hsize, hrun⟩ := (Bool.and_eq_true _ _).mp hrun
  obtain ⟨v, hv, hrun⟩ := (Option.any_eq_true _ _).mp hrun
  obtain ⟨hsize', hrun⟩ := (Bool.and_eq_true _ _).mp hrun
  obtain ⟨t, ht, hlookup⟩ := (Option.any_eq_true _ _).mp hrun
  have hfirst : empty.Fits smallSb (.link [97] 2) := ⟨by decide, by decide, by decide, by decide, by decide⟩
  have hunlink : s.Fits smallSb (.unlink [97]) := fun _ => of_decide_eq_true htrunc
  have hsecond : u.Fits smallSb (.link [98] 3) := ⟨by decide, by decide, by decide, by decide, of_decide_eq_true hsize⟩
  have hthird : v.Fits smallSb (.link [99] 2) := ⟨by decide, by decide, by decide, by decide, of_decide_eq_true hsize'⟩
  have hr : Runs (dirStep smallSb) (Fits smallSb) empty [.link [97] 2, .unlink [97], .link [98] 3, .link [99] 2] t :=
    .cons hfirst hs (.cons hunlink hu (.cons hsecond hv (.cons hthird ht (.nil _))))
  obtain ⟨hmap, hsteps⟩ := runs_isMap smallSb_layout (by decide) empty_dir hr
  exact ⟨t, hr, hmap, of_decide_eq_true hlookup, hsteps⟩

/-- A name as long as the name field is cut off by the link, and is not found. -/
theorem long_name_not_found :
    Dir smallSb empty.disk empty.node [] ∧
      (minixLink smallSb empty.disk empty.node (List.replicate nameSize 97) 2).outcome = .success ∧
      ∃ t, dirStep smallSb empty (.link (List.replicate nameSize 97) 2) = some t ∧
        t.lookup smallSb (List.replicate nameSize 97) = .error (.error .ENOENT) ∧
        t.scan smallSb = [(2, List.replicate 59 97)] := by
  exact ⟨empty_dir, by decide, _, rfl, by decide, by decide⟩

end DirState
end SomeOs.Minix
