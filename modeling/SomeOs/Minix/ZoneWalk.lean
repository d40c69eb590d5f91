import SomeOs.Minix.Types

/-! # The zone walk

The walk visits the slots of an inode and of its indirect tables in file order and
calls back before, at and after each slot that is not entirely before the offset.
The position counter is advanced by the recursion into a table and once more by
the loop that made it.
-/
namespace SomeOs.Minix
open ByteStore

/-- The `pre` and `post` flags of a callback, of which at most one is set. -/
inductive Phase where
  | pre | mid | post
  deriving DecidableEq

structure WalkState (σ : Type) where
  disk : Store
  position : ℕ
  changed : Bool
  udata : σ

abbrev MinixZoneWalkFunction (σ : Type) :=
  (zone position size : ℕ) → Phase → WalkState σ → Outcome × ℕ × WalkState σ

variable {σ : Type}

/-- `CHECKED`: go on after a success only. -/
def checked (r : Outcome × ℕ × WalkState σ) (k : ℕ → WalkState σ → Outcome × ℕ × WalkState σ) :
    Outcome × ℕ × WalkState σ :=
  match r with
  | (.success, zone, st) => k zone st
  | r => r

/-- The body of the loop of `minixZoneWalkRecScan`. -/
def scanSlot (callback : MinixZoneWalkFunction σ) (offset size : ℕ)
    (middle : ℕ → WalkState σ → Outcome × ℕ × WalkState σ) (zone : ℕ) (st : WalkState σ) :
    Outcome × ℕ × WalkState σ :=
  checked
    (if offset < st.position + size then
      checked (callback zone st.position size .pre st) fun zone st =>
        checked (middle zone st) fun zone st => callback zone st.position size .post st
    else (.success, zone, st))
    fun zone st => (.success, zone, { st with position := st.position + size })

/-- The loop of `minixZoneWalkRecScan`. -/
def scanTable (slot : ℕ → WalkState σ → Outcome × ℕ × WalkState σ) :
    List ℕ → WalkState σ → Outcome × List ℕ × WalkState σ
  | [], st => (.success, [], st)
  | zone :: rest, st =>
    match slot zone st with
    | (.success, zone, st) =>
      let r := scanTable slot rest st
      (r.1, zone :: r.2.1, r.2.2)
    | (err, zone, st) => (err, zone :: rest, st)

/-- `minixZoneWalkRec` with the scan of the table as an argument. -/
def walkTable (slot : ℕ → WalkState σ → Outcome × ℕ × WalkState σ) (zone : ℕ) (st : WalkState σ) :
    Outcome × ℕ × WalkState σ :=
  let r := scanTable slot (zoneTable st.disk zone) { st with changed := false }
  let disk := if r.2.2.changed then write r.2.2.disk (offsetForZone zone) (wordsBytes r.2.1)
    else r.2.2.disk
  (r.1, zone, { r.2.2 with disk := disk, changed := st.changed })

/-- One slot of a table of the given depth. -/
def walkSlot (callback : MinixZoneWalkFunction σ) (offset : ℕ) :
    ℕ → ℕ → WalkState σ → Outcome × ℕ × WalkState σ
  | 0 => scanSlot callback offset (zoneSize 0)
      fun zone st => callback zone st.position (zoneSize 0) .mid st
  | depth + 1 => scanSlot callback offset (zoneSize (depth + 1)) fun zone st =>
      if zone = 0 then callback zone st.position (zoneSize (depth + 1)) .mid st
      else walkTable (walkSlot callback offset depth) zone st

def minixZoneWalkRecScan (callback : MinixZoneWalkFunction σ) (offset depth : ℕ) (table : List ℕ)
    (st : WalkState σ) : Outcome × List ℕ × WalkState σ :=
  scanTable (walkSlot callback offset depth) table st

/-- The next scan of `minixZoneWalk`, made when the ones before it did not fail. -/
def scanNext (callback : MinixZoneWalkFunction σ) (offset depth : ℕ) (table : List ℕ)
    (r : Outcome × List ℕ × WalkState σ) : Outcome × List ℕ × WalkState σ :=
  match r with
  | (.success, zones, st) =>
    let q := minixZoneWalkRecScan callback offset depth table st
    (q.1, zones ++ q.2.1, q.2.2)
  | (err, zones, st) => (err, zones ++ table, st)

/-- The four scans of `minixZoneWalk`. -/
def scanZones (callback : MinixZoneWalkFunction σ) (offset : ℕ) (zones : List ℕ) (st : WalkState σ) :
    Outcome × List ℕ × WalkState σ :=
  scanNext callback offset 3 ((zones.drop 9).take 1)
    (scanNext callback offset 2 ((zones.drop 8).take 1)
      (scanNext callback offset 1 ((zones.drop 7).take 1)
        (minixZoneWalkRecScan callback offset 0 (zones.take 7) st)))

structure WalkResult (σ : Type) where
  outcome : Outcome
  node : MinixVfsNode
  disk : Store
  udata : σ

def minixZoneWalk (sb : Minix3Superblock) (callback : MinixZoneWalkFunction σ) (disk : Store)
    (node : MinixVfsNode) (offset : ℕ) (udata : σ) : WalkResult σ :=
  let r := scanZones callback offset node.zones ⟨disk, 0, false, udata⟩
  let node := { node with zones := r.2.1 }
  let disk := if r.2.2.changed then minixWriteNode sb r.2.2.disk node else r.2.2.disk
  ⟨r.1, node, disk, r.2.2.udata⟩

def slotRest (callback : MinixZoneWalkFunction σ) (size : ℕ)
    (middle : ℕ → WalkState σ → Outcome × ℕ × WalkState σ) (zone : ℕ) (st : WalkState σ) :
    Outcome × ℕ × WalkState σ :=
  checked (checked (middle zone st) fun zone st => callback zone st.position size .post st)
    fun zone st => (.success, zone, { st with position := st.position + size })

theorem checked_assoc (r : Outcome × ℕ × WalkState σ)
    (f g : ℕ → WalkState σ → Outcome × ℕ × WalkState σ) :
    checked (checked r f) g = checked r fun zone st => checked (f zone st) g := by
  rcases r with ⟨out, zone, st⟩
  cases out <;> rfl

theorem scanSlot_visit {callback : MinixZoneWalkFunction σ} {offset size zone : ℕ}
    {middle : ℕ → WalkState σ → Outcome × ℕ × WalkState σ} {st : WalkState σ}
    (h : offset < st.position + size) :
    scanSlot callback offset size middle zone st =
      checked (callback zone st.position size .pre st) (slotRest callback size middle) := by
  unfold scanSlot
  rw [if_pos h, checked_assoc]
  rfl

/-! What a callback does to the user data in every call, the walk does to it. -/

section Data
variable {R : σ → σ → Prop} {callback : MinixZoneWalkFunction σ} {offset : ℕ}

theorem checked_udata {u : σ} {r : Outcome × ℕ × WalkState σ}
    {k : ℕ → WalkState σ → Outcome × ℕ × WalkState σ} (htrans : ∀ a b c, R a b → R b c → R a c)
    (hr : R u r.2.2.udata) (hk : ∀ zone st, R st.udata (k zone st).2.2.udata) :
    R u (checked r k).2.2.udata := by
  rcases r with ⟨out, zone, st⟩
  cases out with
  | success => exact htrans _ _ _ hr (hk zone st)
  | successExit => exact hr
  | error e => exact hr
  | divideByZero => exact hr

theorem scanSlot_udata {size zone : ℕ} {middle : ℕ → WalkState σ → Outcome × ℕ × WalkState σ}
    {st : WalkState σ} (hrefl : ∀ a, R a a) (htrans : ∀ a b c, R a b → R b c → R a c)
    (hcall : ∀ zone position size phase st,
      R st.udata (callback zone position size phase st).2.2.udata)
    (hmid : ∀ zone st, R st.udata (middle zone st).2.2.udata) :
    R st.udata (scanSlot callback offset size middle zone st).2.2.udata := by
  refine checked_udata htrans ?_ (fun _ _ => hrefl _)
  split_ifs
  · exact checked_udata htrans (hcall _ _ _ _ _)
      (fun _ _ => checked_udata htrans (hmid _ _) (fun _ _ => hcall _ _ _ _ _))
  · exact hrefl _

theorem scanTable_udata {slot : ℕ → WalkState σ → Outcome × ℕ × WalkState σ} {table : List ℕ}
    (st : WalkState σ) (hrefl : ∀ a, R a a) (htrans : ∀ a b c, R a b → R b c → R a c)
    (hslot : ∀ zone st, R st.udata (slot zone st).2.2.udata) :
    R st.udata (scanTable slot table st).2.2.udata := by
  induction table generalizing st with
  | nil => exact hrefl _
  | cons zone table ih =>
    have hs := hslot zone st
    simp only [scanTable]
    generalize slot zone st = r at hs ⊢
    obtain ⟨out, z, st'⟩ := r
    cases out with
    | success => exact htrans _ _ _ hs (ih st')
    | successExit => exact hs
    | error e => exact hs
    | divideByZero => exact hs

theorem walkSlot_udata {depth zone : ℕ} {st : WalkState σ} (hrefl : ∀ a, R a a)
    (htrans : ∀ a b c, R a b → R b c → R a c)
    (hcall : ∀ zone position size phase st,
      R st.udata (callback zone position size phase st).2.2.udata) :
    R st.udata (walkSlot callback offset depth zone st).2.2.udata := by
  induction depth generalizing zone st with
  | zero => exact scanSlot_udata hrefl htrans hcall (fun _ _ => hcall _ _ _ _ _)
  | succ depth ih =>
    refine scanSlot_udata hrefl htrans hcall (fun zone st => ?_)
    split_ifs
    · exact hcall _ _ _ _ _
    · exact scanTable_udata { st with changed := false } hrefl htrans (fun _ _ => ih)

end Data

end SomeOs.Minix
