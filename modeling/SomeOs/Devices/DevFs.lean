import SomeOs.Base.Decimal
import SomeOs.Base.ListEnds
import SomeOs.Base.Transition
import SomeOs.Minix.Directory
import SomeOs.Vfs.Access

/-! # The device file system

Devices are numbered for each name in the order in which they are registered. The directory has
an entry for the name with the number of every device and one more for the first of each name,
and a lookup takes the number off the name again.
-/
namespace SomeOs.Devices
open Decimal Transition
open Minix (VfsFileType VfsDirectoryEntry vfsEntrySize)
open Vfs (ErrorKind)

inductive DeviceType where
  | block | char | rtc
  deriving DecidableEq

structure Device where
  type : DeviceType
  id : ℕ
  name : List UInt8
  name_id : ℕ
  deriving DecidableEq

/-- The registered devices. The array is as large as its capacity, in the address space. -/
structure Registry where
  next_device_id : ℕ
  device_capacity : ℕ
  devices : List Device

namespace Registry

/-- The loop of `getDeviceNameId`. -/
def countNames (name : List UInt8) : List Device → ℕ → ℕ
  | [], count => count
  | d :: devices, count =>
    countNames name devices (if name = d.name ∧ count ≤ d.name_id then d.name_id + 1 else count)

def getDeviceNameId (s : Registry) (name : List UInt8) : ℕ := countNames name s.devices 0

def registerDevice (s : Registry) (type : DeviceType) (name : List UInt8) : Option Registry :=
  let device : Device := ⟨type, s.next_device_id, name, s.getDeviceNameId name⟩
  let capacity := if s.devices.length = s.device_capacity then
    if s.device_capacity = 0 then 8 else s.device_capacity * 4 / 3 else s.device_capacity
  if capacity * 8 < 2 ^ 64 then some ⟨s.next_device_id + 1, capacity, s.devices ++ [device]⟩ else none

def getDeviceNamed (s : Registry) (name : List UInt8) (name_id : ℕ) : Option Device :=
  s.devices.find? fun d => name = d.name ∧ name_id = d.name_id

/-- The loop of `getNthDevice`, with whether the name has no number. -/
def nthDevice : List Device → ℕ → Option (Device × Bool)
  | [], _ => none
  | d :: devices, nth =>
    if nth = 0 then some (d, d.name_id = 0)
    else if d.name_id = 0 then
      if nth - 1 = 0 then some (d, false) else nthDevice devices (nth - 1 - 1)
    else nthDevice devices (nth - 1)

def getNthDevice (s : Registry) (nth : ℕ) : Option (Device × Bool) := nthDevice s.devices nth

end Registry

def vfsTypeForDevice (device : Device) : VfsFileType :=
  match device.type with
  | .block => .block
  | .char => .char
  | .rtc => .unknown

/-- `%s%lu`, where a number has room for 64 digits. -/
def numberedName (device : Device) : List UInt8 := device.name ++ format 64 device.name_id

structure DeviceReaddir where
  file_read : ℕ
  buff_written : ℕ
  /-- the entry in the buffer, when there is room for all of it -/
  entry : Option VfsDirectoryEntry

def writeDirectoryEntryNamed (ino : ℕ) (name : List UInt8) (type : VfsFileType) (off size : ℕ) : DeviceReaddir :=
  let entry_size := name.length + 1 + vfsEntrySize
  let written := min entry_size size
  ⟨if written ≠ 0 then 1 else 0, written,
    if entry_size ≤ size then some ⟨ino, off, entry_size, type, name⟩ else none⟩

abbrev dot : List UInt8 := [0x2e]
abbrev dotdot : List UInt8 := [0x2e, 0x2e]

def deviceFsDirReaddirAt (s : Registry) (offset length : ℕ) : DeviceReaddir :=
  if offset = 0 then writeDirectoryEntryNamed 1 dot .dir offset length
  else if offset = 1 then writeDirectoryEntryNamed 1 dotdot .dir offset length
  else match s.getNthDevice (offset - 2) with
    | some (dev, fst) =>
      if fst then writeDirectoryEntryNamed (dev.id + 1) dev.name (vfsTypeForDevice dev) offset length
      else writeDirectoryEntryNamed (dev.id + 1) (numberedName dev) (vfsTypeForDevice dev) offset length
    | none => ⟨0, 0, none⟩

/-- The last character is looked at first, which an empty name does not have. -/
def deviceFsDirLookup (s : Registry) (name : List UInt8) : Option (Except ErrorKind ℕ) :=
  if name = dot ∨ name = dotdot then some (.ok 1)
  else name.getLast?.map fun c =>
    let dev := if isDigit c then s.getDeviceNamed (name.rdropWhile isDigit) (parse (name.rtakeWhile isDigit))
      else s.getDeviceNamed name 0
    match dev with
    | some dev => .ok (dev.id + 1)
    | none => .error .ENOENT

def deviceEntries (device : Device) : List (List UInt8 × ℕ × VfsFileType) :=
  (if device.name_id = 0 then [(device.name, device.id + 1, vfsTypeForDevice device)] else []) ++
    [(numberedName device, device.id + 1, vfsTypeForDevice device)]

def listing (s : Registry) : List (List UInt8 × ℕ × VfsFileType) :=
  (dot, 1, .dir) :: (dotdot, 1, .dir) :: s.devices.flatMap deviceEntries

/-- The names of which the entries of devices can be told apart: not empty, without a digit at the
end, and neither `.` nor `..`. -/
def ProperName (name : List UInt8) : Prop :=
  (∀ c ∈ name.getLast?, ¬isDigit c) ∧ name ≠ [] ∧ name ≠ dot ∧ name ≠ dotdot

instance : DecidablePred ProperName := fun _ => inferInstanceAs (Decidable (_ ∧ _))

/-- The devices of a name have different numbers, from zero on, which are small. -/
structure Numbered (s : Registry) : Prop where
  increasing : s.devices.Pairwise fun d e => d.name = e.name → d.name_id < e.name_id
  first : ∀ before d after, s.devices = before ++ d :: after → (d.name_id = 0 ↔ d.name ∉ before.map Device.name)
  small : ∀ d ∈ s.devices, d.name_id < s.devices.length
  proper : ∀ d ∈ s.devices, ProperName d.name
  room : s.devices.length ≤ s.device_capacity ∧ s.device_capacity * 8 < 2 ^ 64
  capacity : s.device_capacity = 0 ∨ 8 ≤ s.device_capacity

section
variable {s s' : Registry} {name : List UInt8} {type : DeviceType} {d e : Device}

theorem countNames_le {devices : List Device} {count : ℕ} : count ≤ Registry.countNames name devices count := by
  induction devices generalizing count with
  | nil => exact le_rfl
  | cons d devices ih =>
    refine le_trans ?_ ih
    split_ifs with h
    · omega
    · exact le_rfl

theorem lt_countNames {devices : List Device} {count : ℕ} (hd : d ∈ devices) (hname : d.name = name) :
    d.name_id < Registry.countNames name devices count := by
  induction devices generalizing count with
  | nil => cases hd
  | cons e devices ih =>
    rcases List.mem_cons.mp hd with rfl | hd
    · refine lt_of_lt_of_le ?_ (@countNames_le name devices (if name = d.name ∧ count ≤ d.name_id then d.name_id + 1 else count))
      split_ifs with h
      · omega
      · exact not_le.mp fun hle => h ⟨hname.symm, hle⟩
    · exact ih hd

theorem countNames_none {devices : List Device} {count : ℕ} (h : ∀ d ∈ devices, d.name ≠ name) :
    Registry.countNames name devices count = count := by
  induction devices with
  | nil => rfl
  | cons d devices ih =>
    unfold Registry.countNames
    rw [if_neg fun hname => h d List.mem_cons_self hname.1.symm]
    exact ih fun e he => h e (List.mem_cons_of_mem _ he)

theorem countNames_le_of {devices : List Device} {count n : ℕ} (hcount : count ≤ n) (h : ∀ d ∈ devices, d.name_id < n) :
    Registry.countNames name devices count ≤ n := by
  induction devices generalizing count with
  | nil => exact hcount
  | cons d devices ih =>
    refine ih ?_ fun e he => h e (List.mem_cons_of_mem _ he)
    split_ifs
    · exact h d List.mem_cons_self
    · exact hcount

theorem Numbered.registerDevice (h : Numbered s) (hname : ProperName name)
    (hs : s.registerDevice type name = some s') : Numbered s' := by
  obtain ⟨hfits, heq⟩ := Option.ite_none_right_eq_some.mp hs
  cases heq
  have hcap := h.capacity
  have hroom := h.room
  refine ⟨List.pairwise_append.mpr ⟨h.increasing, List.pairwise_singleton .., ?_⟩, ?_, ?_, ?_, ⟨?_, hfits⟩, ?_⟩
  · intro d hd e he hsame
    rw [List.mem_singleton.mp he] at hsame ⊢
    exact lt_countNames hd hsame
  · intro before d after hsplit
    rcases List.eq_nil_or_concat after with rfl | ⟨rest, e, rfl⟩
    · obtain ⟨rfl, hd⟩ := List.append_inj' hsplit rfl
      cases hd
      constructor
      · rintro hzero hmem
        obtain ⟨e, he, hsame⟩ := List.mem_map.mp hmem
        have := @lt_countNames name e _ 0 he hsame
        exact absurd hzero (Nat.ne_of_gt (Nat.zero_lt_of_lt this))
      · exact fun hnot => countNames_none fun e he hsame => hnot (List.mem_map.mpr ⟨e, he, hsame⟩)
    · rw [List.concat_eq_append, ← List.cons_append, ← List.append_assoc] at hsplit
      exact h.first before d rest (List.append_inj' hsplit rfl).1
  · intro d hd
    rw [List.length_append, List.length_singleton]
    rcases List.mem_append.mp hd with hd | hd
    · exact (h.small d hd).trans (Nat.lt_succ_self _)
    · rw [List.mem_singleton.mp hd]
      exact Nat.lt_succ_of_le (countNames_le_of (Nat.zero_le _) h.small)
  · intro d hd
    rcases List.mem_append.mp hd with hd | hd
    · exact h.proper d hd
    · rw [List.mem_singleton.mp hd]
      exact hname
  · rw [List.length_append, List.length_singleton]
    dsimp only
    split_ifs <;> omega
  · dsimp only
    split_ifs <;> omega

theorem Numbered.unique (h : Numbered s) (hd : d ∈ s.devices) (he : e ∈ s.devices) (hname : d.name = e.name)
    (hid : d.name_id = e.name_id) : d = e := by
  obtain ⟨before, after, hsplit⟩ := List.append_of_mem hd
  have hincreasing := h.increasing
  rw [hsplit, List.pairwise_append] at hincreasing
  rw [hsplit] at he
  rcases List.mem_append.mp he with he | he
  · exact absurd hid (hincreasing.2.2 e he d List.mem_cons_self hname.symm).ne'
  · rcases List.mem_cons.mp he with rfl | he
    · rfl
    · exact absurd hid ((List.pairwise_cons.mp hincreasing.2.1).1 e he hname).ne

theorem Numbered.getDeviceNamed (h : Numbered s) (hd : d ∈ s.devices) : s.getDeviceNamed d.name d.name_id = some d := by
  unfold Registry.getDeviceNamed
  cases hfind : s.devices.find? fun e => d.name = e.name ∧ d.name_id = e.name_id with
  | none =>
    have hnot := List.find?_eq_none.mp hfind d hd
    simp at hnot
  | some e =>
    have hsame := List.find?_some hfind
    simp only [decide_eq_true_eq] at hsame
    rw [h.unique hd (List.mem_of_find?_eq_some hfind) hsame.1 hsame.2]

theorem Numbered.name_id_lt (h : Numbered s) (hd : d ∈ s.devices) : d.name_id < 2 ^ 61 := by
  have := h.small d hd
  have := h.room
  omega

theorem Numbered.parse_numberedName (h : Numbered s) (hd : d ∈ s.devices) :
    (numberedName d).rdropWhile isDigit = d.name ∧ parse ((numberedName d).rtakeWhile isDigit) = d.name_id := by
  have hlt := h.name_id_lt hd
  have hdigits : ∀ c ∈ format 64 d.name_id, isDigit c := fun c hc => isDigit_of_mem_format hc
  unfold numberedName
  rw [ListEnds.rdropWhile_append (h.proper d hd).1 hdigits, ListEnds.rtakeWhile_append (h.proper d hd).1 hdigits]
  exact ⟨rfl, parse_format (hlt.trans (by norm_num)) (hlt.trans (by norm_num))⟩

theorem isDigit_getLast_numberedName {c : UInt8} (hc : c ∈ (numberedName d).getLast?) : isDigit c := by
  unfold numberedName at hc
  rw [List.getLast?_append_of_ne_nil _ format_ne_nil] at hc
  exact isDigit_of_mem_format (List.mem_of_getLast? hc)

theorem not_isDigit_dot {c : UInt8} (hc : c ∈ dot.getLast?) : ¬isDigit c := by
  cases hc
  decide

theorem not_isDigit_dotdot {c : UInt8} (hc : c ∈ dotdot.getLast?) : ¬isDigit c := by
  cases hc
  decide

theorem numberedName_ne {name : List UInt8} (hname : ∀ c ∈ name.getLast?, ¬isDigit c) : numberedName d ≠ name := by
  intro heq
  have hne : numberedName d ≠ [] := by
    simp [numberedName, format_ne_nil]
  have hlast : (numberedName d).getLast hne ∈ (numberedName d).getLast? := List.getLast?_eq_some_getLast hne
  exact hname _ (heq ▸ hlast) (isDigit_getLast_numberedName hlast)

theorem nthDevice_eq (devices : List Device) (nth : ℕ) : (devices.flatMap deviceEntries)[nth]? =
    (Registry.nthDevice devices nth).map fun r =>
      (if r.2 then r.1.name else numberedName r.1, r.1.id + 1, vfsTypeForDevice r.1) := by
  induction devices generalizing nth with
  | nil => rfl
  | cons d devices ih =>
    rw [List.flatMap_cons]
    unfold Registry.nthDevice
    by_cases hzero : d.name_id = 0
    · have hd : deviceEntries d = [(d.name, d.id + 1, vfsTypeForDevice d), (numberedName d, d.id + 1, vfsTypeForDevice d)] := by
        rw [deviceEntries, if_pos hzero]
        rfl
      rcases nth with _ | _ | nth
      · simp [hd, hzero]
      · simp [hd, hzero]
      · simpa [hd, hzero] using ih nth
    · have hd : deviceEntries d = [(numberedName d, d.id + 1, vfsTypeForDevice d)] := by
        rw [deviceEntries, if_neg hzero]
        rfl
      rcases nth with _ | nth
      · simp [hd, hzero]
      · simpa [hd, hzero] using ih nth

theorem deviceFsDirReaddirAt_eq (s : Registry) (offset length : ℕ) : deviceFsDirReaddirAt s offset length =
    match (listing s)[offset]? with
    | some (name, ino, type) => writeDirectoryEntryNamed ino name type offset length
    | none => ⟨0, 0, none⟩ := by
  unfold deviceFsDirReaddirAt listing
  rcases offset with _ | _ | offset
  · rfl
  · rfl
  · simp only [List.getElem?_cons_succ, nthDevice_eq]
    unfold Registry.getNthDevice
    rw [if_neg (by omega), if_neg (by omega), show offset + 1 + 1 - 2 = offset from rfl]
    cases Registry.nthDevice s.devices offset with
    | none => rfl
    | some r =>
      obtain ⟨d, fst⟩ := r
      cases fst <;> rfl

theorem mem_deviceEntries {entry : List UInt8 × ℕ × VfsFileType} : entry ∈ deviceEntries d ↔
    (d.name_id = 0 ∧ entry = (d.name, d.id + 1, vfsTypeForDevice d)) ∨
      entry = (numberedName d, d.id + 1, vfsTypeForDevice d) := by
  unfold deviceEntries
  split_ifs with hzero <;> simp [hzero]

theorem Numbered.lookup_numberedName (h : Numbered s) (hd : d ∈ s.devices) :
    deviceFsDirLookup s (numberedName d) = some (.ok (d.id + 1)) := by
  obtain ⟨hname, hid⟩ := h.parse_numberedName hd
  have hne : numberedName d ≠ [] := by
    simp [numberedName, format_ne_nil]
  have hlast := List.getLast?_eq_some_getLast hne
  unfold deviceFsDirLookup
  rw [if_neg (not_or.mpr ⟨numberedName_ne fun _ => not_isDigit_dot, numberedName_ne fun _ => not_isDigit_dotdot⟩), hlast,
    Option.map_some, if_pos (isDigit_getLast_numberedName hlast), hname, hid, h.getDeviceNamed hd]

theorem Numbered.lookup_name (h : Numbered s) (hd : d ∈ s.devices) (hzero : d.name_id = 0) :
    deviceFsDirLookup s d.name = some (.ok (d.id + 1)) := by
  obtain ⟨hdigit, hne, hdot, hdotdot⟩ := h.proper d hd
  have hlast := List.getLast?_eq_some_getLast hne
  have hfound := h.getDeviceNamed hd
  rw [hzero] at hfound
  unfold deviceFsDirLookup
  rw [if_neg (not_or.mpr ⟨hdot, hdotdot⟩), hlast, Option.map_some, if_neg (hdigit _ hlast), hfound]

theorem Numbered.lookup (h : Numbered s) {entry : List UInt8 × ℕ × VfsFileType} (hentry : entry ∈ listing s) :
    deviceFsDirLookup s entry.1 = some (.ok entry.2.1) := by
  rcases List.mem_cons.mp hentry with rfl | hentry
  · rfl
  rcases List.mem_cons.mp hentry with rfl | hentry
  · rfl
  obtain ⟨d, hd, hentry⟩ := List.mem_flatMap.mp hentry
  rcases mem_deviceEntries.mp hentry with ⟨hzero, rfl⟩ | rfl
  · exact h.lookup_name hd hzero
  · exact h.lookup_numberedName hd

theorem Numbered.numberedName_injective (h : Numbered s) (hd : d ∈ s.devices) (he : e ∈ s.devices)
    (heq : numberedName d = numberedName e) : d = e := by
  obtain ⟨hname, hid⟩ := h.parse_numberedName hd
  obtain ⟨hname', hid'⟩ := h.parse_numberedName he
  rw [heq] at hname hid
  exact h.unique hd he (hname.symm.trans hname') (hid.symm.trans hid')

theorem Numbered.names_disjoint (h : Numbered s) (hd : d ∈ s.devices) (he : e ∈ s.devices) (hne : d ≠ e) :
    ((deviceEntries d).map Prod.fst).Disjoint ((deviceEntries e).map Prod.fst) := by
  intro name hname hname'
  obtain ⟨x, hx, rfl⟩ := List.mem_map.mp hname
  obtain ⟨y, hy, hxy⟩ := List.mem_map.mp hname'
  rcases mem_deviceEntries.mp hx with ⟨hzero, rfl⟩ | rfl <;> rcases mem_deviceEntries.mp hy with ⟨hzero', rfl⟩ | rfl
  · exact hne (h.unique hd he hxy.symm (hzero.trans hzero'.symm))
  · exact numberedName_ne (h.proper d hd).1 hxy
  · exact numberedName_ne (h.proper e he).1 hxy.symm
  · exact hne (h.numberedName_injective hd he hxy.symm)

theorem Numbered.nodup (h : Numbered s) : ((listing s).map Prod.fst).Nodup := by
  have hproper : ∀ d ∈ s.devices, ∀ entry ∈ deviceEntries d, entry.1 ≠ dot ∧ entry.1 ≠ dotdot := by
    intro d hd entry hentry
    rcases mem_deviceEntries.mp hentry with ⟨-, rfl⟩ | rfl
    · exact (h.proper d hd).2.2
    · exact ⟨numberedName_ne fun _ => not_isDigit_dot, numberedName_ne fun _ => not_isDigit_dotdot⟩
  have hnone : ∀ name ∈ (s.devices.flatMap deviceEntries).map Prod.fst, name ≠ dot ∧ name ≠ dotdot := by
    intro name hname
    obtain ⟨entry, hentry, rfl⟩ := List.mem_map.mp hname
    obtain ⟨d, hd, hentry⟩ := List.mem_flatMap.mp hentry
    exact hproper d hd entry hentry
  have hdevices : s.devices.Nodup := h.increasing.imp fun hlt heq => by
    subst heq
    exact absurd (hlt rfl) (lt_irrefl _)
  simp only [listing, List.map_cons, List.nodup_cons, List.mem_cons, not_or]
  refine ⟨⟨by decide, fun hmem => (hnone _ hmem).1 rfl⟩, fun hmem => (hnone _ hmem).2 rfl, ?_⟩
  rw [List.map_flatMap, List.nodup_flatMap]
  refine ⟨fun d hd => ?_, hdevices.imp_of_mem fun {d e} hd he hne => h.names_disjoint hd he hne⟩
  unfold deviceEntries
  split_ifs
  · simpa using (numberedName_ne (h.proper d hd).1).symm
  · simp

/-- Reading on from an offset until nothing is read, with no more than `fuel` calls. -/
def enumerate (s : Registry) (length : ℕ) : ℕ → ℕ → List VfsDirectoryEntry
  | 0, _ => []
  | fuel + 1, offset =>
    let r := deviceFsDirReaddirAt s offset length
    if r.file_read = 0 then [] else r.entry.toList ++ enumerate s length fuel (offset + r.file_read)

/-- The buffer has room for every entry. -/
def HasRoom (s : Registry) (length : ℕ) : Prop := ∀ entry ∈ listing s, entry.1.length + 1 + vfsEntrySize ≤ length

theorem writeDirectoryEntryNamed_room {ino off size : ℕ} {type : VfsFileType} (hroom : name.length + 1 + vfsEntrySize ≤ size) :
    writeDirectoryEntryNamed ino name type off size =
      ⟨1, name.length + 1 + vfsEntrySize, some ⟨ino, off, name.length + 1 + vfsEntrySize, type, name⟩⟩ := by
  simp only [writeDirectoryEntryNamed, Nat.min_eq_left hroom, if_pos hroom]
  rw [if_pos (by omega)]

theorem enumerate_eq {length fuel offset : ℕ} (hroom : HasRoom s length) (hfuel : (listing s).length < offset + fuel) :
    (enumerate s length fuel offset).map (fun e => (e.name, e.id, e.type)) = (listing s).drop offset := by
  induction fuel generalizing offset with
  | zero => exact (List.drop_eq_nil_of_le (by omega)).symm
  | succ fuel ih =>
    unfold enumerate
    rw [deviceFsDirReaddirAt_eq]
    by_cases hlt : offset < (listing s).length
    · have hfits := hroom _ (List.getElem_mem hlt)
      rw [List.getElem?_eq_getElem hlt, List.drop_eq_getElem_cons hlt]
      revert hfits
      rcases (listing s)[offset] with ⟨name, ino, type⟩
      intro hfits
      dsimp only
      have hrest := @ih (offset + 1) (by omega)
      rw [writeDirectoryEntryNamed_room hfits, if_neg one_ne_zero, List.map_append, hrest]
      rfl
    · rw [List.getElem?_eq_none (by omega), List.drop_eq_nil_of_le (by omega)]
      rfl

def registerStep (s : Registry) (device : DeviceType × List UInt8) : Option Registry :=
  s.registerDevice device.1 device.2

def noDevices : Registry := ⟨1, 0, []⟩

theorem numbered_noDevices : Numbered noDevices :=
  ⟨.nil, fun before _ _ h => (by cases before <;> cases h), fun _ hd => (by cases hd), fun _ hd => (by cases hd),
    ⟨le_rfl, by decide⟩, .inl rfl⟩

theorem devices_registered {devices : List (DeviceType × List UInt8)} {ok : Registry → DeviceType × List UInt8 → Prop}
    {t : Registry} (h : Runs registerStep ok s devices t) :
    t.devices.map Device.name = s.devices.map Device.name ++ devices.map Prod.snd := by
  induction h with
  | nil => exact (List.append_nil _).symm
  | cons hok hstep _ ih =>
    obtain ⟨-, heq⟩ := Option.ite_none_right_eq_some.mp hstep
    cases heq
    rw [ih]
    simp

/-- The directory and the lookup agree, for names other than the ones that the directory has itself. -/
theorem listing_lookup {devices : List (DeviceType × List UInt8)}
    (h : Runs registerStep (fun _ device => ProperName device.2) noDevices devices s) :
    s.devices.map Device.name = devices.map Prod.snd ∧
    (∀ before d after, s.devices = before ++ d :: after → (d.name_id = 0 ↔ d.name ∉ before.map Device.name)) ∧
    (∀ length fuel, HasRoom s length → (listing s).length < fuel →
      (enumerate s length fuel 0).map (fun e => (e.name, e.id, e.type)) = listing s) ∧
    ((listing s).map Prod.fst).Nodup ∧
    (∀ entry ∈ listing s, deviceFsDirLookup s entry.1 = some (.ok entry.2.1)) ∧
    ∀ d ∈ s.devices, (numberedName d, d.id + 1, vfsTypeForDevice d) ∈ listing s := by
  have hnumbered : Numbered s := h.invariant (fun _ _ _ hn hok hstep => hn.registerDevice hok hstep) numbered_noDevices
  refine ⟨devices_registered h, hnumbered.first, fun length fuel hroom hfuel => ?_, hnumbered.nodup,
    fun entry hentry => hnumbered.lookup hentry, fun d hd => ?_⟩
  · exact enumerate_eq hroom (by omega)
  · exact List.mem_cons_of_mem _ (List.mem_cons_of_mem _ (List.mem_flatMap.mpr ⟨d, hd, mem_deviceEntries.mpr (.inr rfl)⟩))

def threeDevices : List (DeviceType × List UInt8) :=
  [(.char, [0x74, 0x74, 0x79]), (.char, [0x6e, 0x75, 0x6c, 0x6c]), (.char, [0x74, 0x74, 0x79])]

theorem listing_lookup_ttys : ∃ s, execOk registerStep (fun _ device => ProperName device.2) noDevices threeDevices =
    some s ∧ ((listing s).map Prod.fst).Nodup ∧
      (enumerate s 48 8 0).map (fun e => (e.name, e.id, e.type)) = listing s ∧ (listing s).length = 7 := by
  have hlisting : ((execOk registerStep (fun _ device => ProperName device.2) noDevices threeDevices).map fun s =>
      (decide ((listing s).length = 7), decide (∀ entry ∈ listing s, entry.1.length + 1 + vfsEntrySize ≤ 48))) =
        some (true, true) := by decide +kernel
  obtain ⟨s, hs, hvalues⟩ := Option.map_eq_some_iff.mp hlisting
  obtain ⟨hlength, hroom⟩ := Prod.mk.inj hvalues
  have hentries := of_decide_eq_true hroom
  replace hlength := of_decide_eq_true hlength
  obtain ⟨-, -, hread, hnodup, -⟩ := listing_lookup (Runs.of_execOk hs)
  exact ⟨s, hs, hnodup, hread 48 8 hentries (by omega), hlength⟩

/-- A device of the name of the directory is listed twice by that name. -/
theorem dot_listed_twice : ∃ s, exec registerStep noDevices [(.char, dot)] = some s ∧
    ¬((listing s).map Prod.fst).Nodup :=
  ⟨_, rfl, by decide⟩

end

end SomeOs.Devices
