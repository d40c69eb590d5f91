import Mathlib

/-! # Copying a file

The answers of the system are given for every call. A failed call returns -1, which the counters of the
loops take for the largest number, and every write of a block begins at the start of the buffer.
-/
namespace SomeOs.Cp

abbrev Bytes := List UInt8

/-- `SIZE_MAX`, for the result -1. -/
abbrev sizeMax : ℕ := 2 ^ 64 - 1

structure Arguments where
  no_clobber : Bool
  update : Bool
  link : Bool

/-- The answers of the system. The counts are how much a read or a write would take, `none` for an error. Without a
destination its time is what the stack holds. -/
structure System where
  src_mtime : Option ℕ
  dst_mtime : Option ℕ
  stack_mtime : ℕ
  remove : Bool
  link : Bool
  open_src : Bool
  open_dst : Bool
  read : ℕ → Option ℕ
  write : ℕ → Option ℕ

inductive Report where
  | cannotStat
  | cannotRemove
  | cannotLink
  | cannotOpenSource
  | cannotOpenDestination

/-- The source behind what was read, the memory from the buffer on, the destination, the calls that were
made and whether one of them failed. -/
structure Copy where
  rest : Bytes
  memory : ℕ → UInt8
  out : Bytes
  reads : ℕ
  writes : ℕ
  failed : Bool

def taken (n limit : ℕ) : ℕ := max 1 (min n limit)

variable (sys : System)

/-- `read(fsrc, buffer, 1024)` -/
def read (c : Copy) : ℕ × Copy :=
  match sys.read c.reads with
  | none => (sizeMax, { c with reads := c.reads + 1, failed := true })
  | some n =>
    let block := c.rest.take (taken n 1024)
    (block.length, { c with
      rest := c.rest.drop (taken n 1024)
      memory := fun i => block.getD i (c.memory i)
      reads := c.reads + 1 })

/-- `write(fdst, buffer, size)` -/
def write (size : ℕ) (c : Copy) : ℕ × Copy :=
  match sys.write c.writes with
  | none => (sizeMax, { c with writes := c.writes + 1, failed := true })
  | some n => (taken n size, { c with
      out := c.out ++ (List.range (taken n size)).map c.memory
      writes := c.writes + 1 })

/-- The loop over the writes of a block. -/
def writeBlock (tmp_size : ℕ) : ℕ → ℕ → Copy → Option Copy
  | 0, _, _ => none
  | fuel + 1, left, c =>
    if left = 0 then some c
    else
      let (n, c) := write sys tmp_size c
      writeBlock tmp_size fuel ((left + 2 ^ 64 - n) % 2 ^ 64) c

def copyBlocks : ℕ → Copy → Option Copy
  | 0, _ => none
  | fuel + 1, c => do
    let (tmp_size, c) := read sys c
    let c ← writeBlock sys tmp_size fuel tmp_size c
    if tmp_size ≠ 0 then copyBlocks fuel c else pure c

/-- What `copyFile` reports and leaves as the destination, and whether a read or a write failed. -/
structure Outcome where
  report : Option Report
  content : Option Bytes
  failed : Bool

def Arguments.allows (args : Arguments) (sys : System) (src_mtime : ℕ) : Bool :=
  (!args.no_clobber || sys.dst_mtime.isNone) && (!args.update || decide (sys.dst_mtime.getD sys.stack_mtime < src_mtime))

/-- `copyFile` from a file with the contents `src` to a path with the contents `dst`, with `memory` on the stack. -/
def copyFile (args : Arguments) (src : Bytes) (dst : Option Bytes) (memory : ℕ → UInt8) (fuel : ℕ) : Option Outcome :=
  match sys.src_mtime with
  | none => some ⟨some .cannotStat, dst, false⟩
  | some src_mtime =>
    if args.allows sys src_mtime then
      if args.link then
        if sys.dst_mtime.isSome && !sys.remove then some ⟨some .cannotRemove, dst, false⟩
        else if !sys.link then some ⟨some .cannotLink, none, false⟩
        else some ⟨none, some src, false⟩
      else if !sys.open_src then some ⟨some .cannotOpenSource, dst, false⟩
      else if sys.dst_mtime.isSome && !sys.remove then some ⟨some .cannotRemove, dst, false⟩
      else if !sys.open_dst then some ⟨some .cannotOpenDestination, none, false⟩
      else (copyBlocks sys fuel ⟨src, memory, [], 0, 0, false⟩).map fun c => ⟨none, some c.out, c.failed⟩
    else some ⟨none, dst, false⟩

end SomeOs.Cp

/-! # Copies with short writes

A write that takes less than the rest of a block is followed by one from the start of the block. The copy
is faithful when no call fails and the parts that are written make up each block by chance, as they do
when there is one write for each of them.
-/
namespace SomeOs.Cp
variable {sys : System}

/-- From the write `i` up to the write `j`, parts from the start of the block make up `rest`. -/
inductive Makes (sys : System) (block : Bytes) : Bytes → ℕ → ℕ → Prop
  | done (i : ℕ) : Makes sys block [] i i
  | write {rest : Bytes} {n i j : ℕ} (hwrite : sys.write i = some n)
    (htail : Makes sys block rest (i + 1) j) : Makes sys block (block.take (taken n block.length) ++ rest) i j

/-- From the given read and write on, all calls succeed and the blocks are made up. -/
inductive Copies (sys : System) : Bytes → ℕ → ℕ → Prop
  | eof {n reads : ℕ} (writes : ℕ) (hread : sys.read reads = some n) : Copies sys [] reads writes
  | block {src : Bytes} {n reads writes writes' : ℕ} (hne : src ≠ []) (hread : sys.read reads = some n)
    (hmakes : Makes sys (src.take (taken n 1024)) (src.take (taken n 1024)) writes writes')
    (htail : Copies sys (src.drop (taken n 1024)) (reads + 1) writes') : Copies sys src reads writes

/-- The calls end, and with no report the destination is the source and no read or write failed. -/
def Faithful (sys : System) (args : Arguments) (src : Bytes) (dst : Option Bytes) (memory : ℕ → UInt8) : Prop :=
  ∃ fuel outcome, copyFile sys args src dst memory fuel = some outcome ∧
    (outcome.report = none → outcome.content = some src) ∧ (outcome.failed = true → outcome.report ≠ none)

def Opens (sys : System) (args : Arguments) : Prop :=
  sys.src_mtime.isSome = true ∧ args.link = false ∧ sys.open_src = true ∧
    (sys.dst_mtime.isSome = true → sys.remove = true) ∧ sys.open_dst = true

section Write
variable {c c' : Copy} {block : Bytes} {fuel left : ℕ}

theorem taken_pos (n limit : ℕ) : 0 < taken n limit := by
  unfold taken
  omega

theorem taken_le {limit : ℕ} (n : ℕ) (h : 0 < limit) : taken n limit ≤ limit := by
  unfold taken
  omega

def Holds (c : Copy) (block : Bytes) : Prop := ∀ k ≤ block.length, (List.range k).map c.memory = block.take k

theorem writeBlock_done (size : ℕ) : writeBlock sys size (fuel + 1) 0 c = some c := if_pos rfl

theorem writeBlock_next {n : ℕ} (hleft : 0 < left) (hwrite : sys.write c.writes = some n) :
    writeBlock sys block.length (fuel + 1) left c =
      writeBlock sys block.length fuel ((left + 2 ^ 64 - taken n block.length) % 2 ^ 64) { c with
        out := c.out ++ (List.range (taken n block.length)).map c.memory
        writes := c.writes + 1 } := by
  rw [writeBlock, if_neg hleft.ne', write, hwrite]

theorem writeBlock_failed {size : ℕ} (h : writeBlock sys size fuel left c = some c') (hfailed : c.failed = true) :
    c'.failed = true := by
  induction fuel generalizing left c with
  | zero => cases h
  | succ fuel ih =>
    unfold writeBlock at h
    split_ifs at h with hleft
    · cases h
      exact hfailed
    · refine ih h ?_
      cases sys.write c.writes with
      | none => rfl
      | some n => exact hfailed

/-- Parts of the block that make up what is left are written and nothing else. -/
theorem Makes.writeBlock {rest : Bytes} {i j : ℕ} (h : Makes sys block rest i j) (hpos : 0 < block.length)
    (hsmall : block.length ≤ 1024) (hrest : rest.length ≤ 1024) (hholds : Holds c block) (hi : c.writes = i)
    (hfuel : rest.length < fuel) :
    writeBlock sys block.length fuel rest.length c = some { c with out := c.out ++ rest, writes := j } := by
  induction h generalizing c fuel with
  | done i =>
    obtain ⟨fuel, rfl⟩ := Nat.exists_eq_succ_of_ne_zero (by omega : fuel ≠ 0)
    subst hi
    rw [List.length_nil, writeBlock_done, List.append_nil]
  | @write rest n i j hwrite htail ih =>
    obtain ⟨fuel, rfl⟩ := Nat.exists_eq_succ_of_ne_zero (by omega : fuel ≠ 0)
    subst hi
    have hle := taken_le n hpos
    have hn := taken_pos n block.length
    have hlength : (block.take (taken n block.length) ++ rest).length = taken n block.length + rest.length := by
      rw [List.length_append, List.length_take, Nat.min_eq_left hle]
    rw [hlength] at hrest hfuel ⊢
    have hleft : (taken n block.length + rest.length + 2 ^ 64 - taken n block.length) % 2 ^ 64 = rest.length := by
      omega
    rw [writeBlock_next (by omega) hwrite, hleft, hholds _ hle]
    refine Eq.trans (ih ?_ hholds rfl ?_) ?_
    · omega
    · omega
    · simp only [List.append_assoc]

/-- A loop that ends without a failure has written what was left at least, and parts of the block if it is that much. -/
theorem writeBlock_some (h : SomeOs.Cp.writeBlock sys block.length fuel left c = some c') (hfailed : c'.failed = false)
    (hpos : 0 < block.length) (hsmall : block.length ≤ 1024) (hleft : left < 2 ^ 64) (hholds : Holds c block) :
    ∃ w, c' = { c with out := c.out ++ w, writes := c'.writes } ∧ left ≤ w.length ∧
      (w.length = left → Makes sys block w c.writes c'.writes) := by
  induction fuel generalizing left c with
  | zero => cases h
  | succ fuel ih =>
    rcases Nat.eq_zero_or_pos left with rfl | hgt
    · rw [writeBlock_done] at h
      cases h
      exact ⟨[], by simp, le_rfl, fun _ => .done _⟩
    cases hwrite : sys.write c.writes with
    | none =>
      rw [SomeOs.Cp.writeBlock, if_neg hgt.ne', write, hwrite] at h
      rw [writeBlock_failed h rfl] at hfailed
      cases hfailed
    | some n =>
      have hle := taken_le n hpos
      have hn := taken_pos n block.length
      have hlength : (block.take (taken n block.length)).length = taken n block.length := by
        rw [List.length_take, Nat.min_eq_left hle]
      rw [writeBlock_next hgt hwrite, hholds _ hle] at h
      obtain ⟨w, hc', hlong, hmakes⟩ := ih h (Nat.mod_lt _ (by decide)) hholds
      refine ⟨block.take (taken n block.length) ++ w, ?_, ?_, fun heq => ?_⟩
      · rw [hc']
        simp only [List.append_assoc]
      · rw [List.length_append, hlength]
        omega
      · rw [List.length_append, hlength] at heq
        exact .write hwrite (hmakes (by omega))

end Write

section Read
variable {c c' : Copy} {fuel : ℕ}

theorem read_some {n : ℕ} (hread : sys.read c.reads = some n) : read sys c = ((c.rest.take (taken n 1024)).length, { c with
    rest := c.rest.drop (taken n 1024)
    memory := fun i => (c.rest.take (taken n 1024)).getD i (c.memory i)
    reads := c.reads + 1 }) := by
  rw [read, hread]

theorem read_holds {n : ℕ} (hread : sys.read c.reads = some n) : Holds (read sys c).2 (c.rest.take (taken n 1024)) := by
  rw [read_some hread]
  intro k hk
  refine List.ext_getElem (by simpa using hk) fun i hi hi' => ?_
  have hlt : i < (c.rest.take (taken n 1024)).length := by
    simp only [List.length_take] at hi' ⊢
    omega
  rw [List.getElem_map, List.getElem_range, List.getElem_take]
  exact List.getD_eq_getElem _ _ hlt

theorem taken_length {n : ℕ} (hne : c.rest ≠ []) : 0 < (c.rest.take (taken n 1024)).length ∧
    (c.rest.take (taken n 1024)).length ≤ 1024 := by
  have hpos := List.length_pos_iff.mpr hne
  have hn := taken_pos n 1024
  have hle := @taken_le 1024 n (by decide)
  rw [List.length_take]
  omega

theorem copyBlocks_block {n : ℕ} (hread : sys.read c.reads = some n) (hne : c.rest ≠ []) : copyBlocks sys (fuel + 1) c =
    (writeBlock sys (c.rest.take (taken n 1024)).length fuel (c.rest.take (taken n 1024)).length (read sys c).2).bind
      (copyBlocks sys fuel) := by
  have hsize : (read sys c).1 = (c.rest.take (taken n 1024)).length := by rw [read_some hread]
  have hpos := (@taken_length c n hne).1
  rw [copyBlocks]
  simp only [bind, hsize]
  congr 1
  funext c'
  rw [if_pos hpos.ne']

theorem copyBlocks_eof {n : ℕ} (hread : sys.read c.reads = some n) (hnil : c.rest = []) :
    copyBlocks sys (fuel + 1 + 1) c = some (read sys c).2 := by
  have hsize : (read sys c).1 = 0 := by
    rw [read_some hread, hnil, List.take_nil]
    rfl
  rw [copyBlocks]
  simp only [bind, hsize, writeBlock_done, Option.bind_some]
  rfl

theorem copyBlocks_failed (h : copyBlocks sys fuel c = some c') (hfailed : c.failed = true) : c'.failed = true := by
  induction fuel generalizing c with
  | zero => cases h
  | succ fuel ih =>
    have hread : (read sys c).2.failed = true := by
      unfold read
      cases sys.read c.reads with
      | none => rfl
      | some n => exact hfailed
    rw [copyBlocks] at h
    obtain ⟨c₁, hwrite, h⟩ := Option.bind_eq_some_iff.mp h
    have hfailed₁ := writeBlock_failed hwrite hread
    split_ifs at h with hsize
    · exact ih h hfailed₁
    · cases h
      exact hfailed₁

/-- Blocks that are made up are copied. -/
theorem Copies.copyBlocks {src : Bytes} {reads writes : ℕ} (h : Copies sys src reads writes) (hsrc : c.rest = src)
    (hreads : c.reads = reads) (hwrites : c.writes = writes) (hfuel : src.length + 1025 < fuel) :
    ∃ c', copyBlocks sys fuel c = some c' ∧ c'.out = c.out ++ src ∧ c'.failed = c.failed := by
  induction h generalizing c fuel with
  | @eof n reads writes hread =>
    obtain ⟨fuel, rfl⟩ := Nat.exists_eq_add_of_le' (by omega : 1 + 1 ≤ fuel)
    subst hreads
    refine ⟨_, copyBlocks_eof hread hsrc, ?_, ?_⟩
    · rw [read_some hread, List.append_nil]
    · rw [read_some hread]
  | @block src n reads writes writes' hne hread hmakes htail ih =>
    obtain ⟨fuel, rfl⟩ := Nat.exists_eq_add_of_le' (by omega : 1 ≤ fuel)
    subst hsrc hreads hwrites
    obtain ⟨hpos, hsmall⟩ := @taken_length c n hne
    have hholds := read_holds hread
    have hwrite := hmakes.writeBlock hpos hsmall hsmall hholds (by rw [read_some hread]) (by omega : _ < fuel)
    rw [copyBlocks_block hread hne, hwrite, Option.bind_some]
    have hshort : (c.rest.drop (taken n 1024)).length < c.rest.length := by
      have htaken := taken_pos n 1024
      have hlength := List.length_pos_iff.mpr hne
      rw [List.length_drop]
      omega
    obtain ⟨c', hrun, hout, hfailed⟩ := @ih { (read sys c).2 with
      out := (read sys c).2.out ++ c.rest.take (taken n 1024)
      writes := writes' } fuel (by rw [read_some hread]) (by rw [read_some hread]) rfl (by omega)
    refine ⟨c', hrun, ?_, ?_⟩
    · rw [hout, read_some hread, List.append_assoc, List.take_append_drop]
    · rw [hfailed, read_some hread]

/-- A copy that ends without a failure and leaves what the source holds has made up the blocks. -/
theorem copyBlocks_some (h : SomeOs.Cp.copyBlocks sys fuel c = some c') (hfailed : c'.failed = false) :
    ∃ w, c'.out = c.out ++ w ∧ c.rest.length ≤ w.length ∧ (w = c.rest → Copies sys c.rest c.reads c.writes) := by
  induction fuel generalizing c with
  | zero => cases h
  | succ fuel ih =>
    cases hread : sys.read c.reads with
    | none =>
      rw [SomeOs.Cp.copyBlocks] at h
      obtain ⟨c₁, hwrite, h⟩ := Option.bind_eq_some_iff.mp h
      have hread : (read sys c).2.failed = true := by rw [read, hread]
      have hfailed₁ := writeBlock_failed hwrite hread
      split_ifs at h with hsize
      · rw [copyBlocks_failed h hfailed₁] at hfailed
        cases hfailed
      · cases h
        rw [hfailed₁] at hfailed
        cases hfailed
    | some n =>
      by_cases hnil : c.rest = []
      · refine ⟨[], ?_, by simp [hnil], fun _ => hnil ▸ .eof _ hread⟩
        cases fuel with
        | zero =>
          rw [SomeOs.Cp.copyBlocks] at h
          cases h
        | succ fuel =>
          rw [copyBlocks_eof hread hnil] at h
          cases h
          rw [read_some hread, List.append_nil]
      · obtain ⟨hpos, hsmall⟩ := @taken_length c n hnil
        rw [copyBlocks_block hread hnil] at h
        obtain ⟨c₁, hwrite, h⟩ := Option.bind_eq_some_iff.mp h
        have hfailed₁ : c₁.failed = false := by
          cases hc : c₁.failed with
          | false => rfl
          | true =>
            rw [copyBlocks_failed h hc] at hfailed
            cases hfailed
        obtain ⟨w₁, hc₁, hlong, hmakes⟩ := writeBlock_some hwrite hfailed₁ hpos hsmall (by omega) (read_holds hread)
        obtain ⟨w, hout, hrest, hcopies⟩ := ih h
        have hsame : c₁.out = c.out ++ w₁ ∧ c₁.rest = c.rest.drop (taken n 1024) ∧ c₁.reads = c.reads + 1 := by
          rw [hc₁, read_some hread]
          exact ⟨rfl, rfl, rfl⟩
        obtain ⟨hout₁, hrest₁, hreads₁⟩ := hsame
        rw [hrest₁] at hrest hcopies
        have hsplit := congrArg List.length (List.take_append_drop (taken n 1024) c.rest)
        rw [List.length_append] at hsplit
        refine ⟨w₁ ++ w, by rw [hout, hout₁, List.append_assoc], by rw [List.length_append]; omega, fun heq => ?_⟩
        -- neither part can be longer than its share
        have hall := congrArg List.length heq
        rw [List.length_append] at hall
        rw [← List.take_append_drop (taken n 1024) c.rest] at heq
        obtain ⟨hw₁, hw⟩ := List.append_inj heq (by omega)
        subst hw₁ hw
        have hmade := hmakes rfl
        rw [read_some hread] at hmade
        exact .block hnil hread hmade (hreads₁ ▸ hcopies rfl)

end Read

section Open
variable {args : Arguments}

/-- Without the loop, there is a report or a link. -/
theorem faithful_of_not_opens (hallows : ∀ src_mtime, sys.src_mtime = some src_mtime → args.allows sys src_mtime = true)
    (hopens : ¬Opens sys args) (src : Bytes) (dst : Option Bytes) (memory : ℕ → UInt8) :
    Faithful sys args src dst memory := by
  suffices hrun : ∃ outcome, copyFile sys args src dst memory 0 = some outcome ∧
      (outcome.report = none → outcome.content = some src) ∧ outcome.failed = false by
    obtain ⟨outcome, heq, hcontent, hfailed⟩ := hrun
    exact ⟨0, outcome, heq, hcontent, by simp [hfailed]⟩
  unfold copyFile
  cases hstat : sys.src_mtime with
  | none => exact ⟨_, rfl, by simp⟩
  | some src_mtime =>
  dsimp only
  rw [if_pos (hallows _ hstat)]
  split_ifs with hlink hremove hdone hsource hremove hdestination
  · exact ⟨_, rfl, by simp⟩
  · exact ⟨_, rfl, by simp⟩
  · exact ⟨_, rfl, by simp⟩
  · exact ⟨_, rfl, by simp⟩
  · exact ⟨_, rfl, by simp⟩
  · exact ⟨_, rfl, by simp⟩
  · refine absurd ⟨by rw [hstat]; rfl, by simpa using hlink, by simpa using hsource, fun hdst => ?_,
      by simpa using hdestination⟩ hopens
    simpa [hdst] using hremove

theorem copyFile_opens (hallows : ∀ src_mtime, sys.src_mtime = some src_mtime → args.allows sys src_mtime = true)
    (hopens : Opens sys args) (src : Bytes) (dst : Option Bytes) (memory : ℕ → UInt8) (fuel : ℕ) :
    copyFile sys args src dst memory fuel =
      (copyBlocks sys fuel ⟨src, memory, [], 0, 0, false⟩).map fun c => ⟨none, some c.out, c.failed⟩ := by
  obtain ⟨hstat, hlink, hsource, hremove, hdestination⟩ := hopens
  obtain ⟨src_mtime, hstat⟩ := Option.isSome_iff_exists.mp hstat
  have hremove' : (sys.dst_mtime.isSome && !sys.remove) = false := by
    cases hdst : sys.dst_mtime.isSome with
    | false => rfl
    | true => simp [hremove hdst]
  unfold copyFile
  rw [hstat]
  dsimp only
  rw [if_pos (hallows _ hstat), hlink, hsource, hremove', hdestination]
  rfl

/-- A failure to open the files is reported. A copy between two open files is faithful if no call fails and the blocks are
made up by what the writes take. -/
theorem copyFile_faithful (hallows : ∀ src_mtime, sys.src_mtime = some src_mtime → args.allows sys src_mtime = true)
    (src : Bytes) (dst : Option Bytes) (memory : ℕ → UInt8) :
    Faithful sys args src dst memory ↔ (Opens sys args → Copies sys src 0 0) := by
  by_cases hopens : Opens sys args
  · simp only [hopens, true_imp_iff]
    constructor
    · rintro ⟨fuel, outcome, hrun, hcontent, hfailed⟩
      rw [copyFile_opens hallows hopens] at hrun
      obtain ⟨c, hc, rfl⟩ := Option.map_eq_some_iff.mp hrun
      have hsucceeds : c.failed = false := by
        cases hf : c.failed with
        | false => rfl
        | true => exact absurd rfl (hfailed hf)
      obtain ⟨w, hout, -, hcopies⟩ := copyBlocks_some hc hsucceeds
      have hsame : c.out = src := Option.some.inj (hcontent rfl)
      exact hcopies (hout.symm.trans hsame)
    · intro h
      obtain ⟨c, hrun, hout, hfailed⟩ := @Copies.copyBlocks sys ⟨src, memory, [], 0, 0, false⟩ (src.length + 1026) src 0 0 h
        rfl rfl rfl (by omega)
      refine ⟨_, _, (copyFile_opens hallows hopens src dst memory _).trans (congrArg _ hrun), fun _ => ?_, fun hf => ?_⟩
      · exact congrArg some hout
      · exact absurd (hfailed.symm.trans hf) Bool.false_ne_true
  · exact iff_of_true (faithful_of_not_opens hallows hopens src dst memory) fun h => absurd h hopens

def fullSystem : System := ⟨some 1, none, 0, true, true, true, true, fun _ => some 1024, fun _ => some 1024⟩

/-- One block in one write. -/
theorem copyFile_faithful_full : Faithful fullSystem ⟨false, false, false⟩ [1, 2, 3] none fun _ => 0 := by
  refine (copyFile_faithful (fun _ _ => rfl) [1, 2, 3] none fun _ => 0).mpr fun _ => ?_
  exact .block (by simp) rfl (.write (n := 1024) rfl (.done 1)) (.eof (n := 1024) 1 rfl)

def shortSystem : System := { fullSystem with write := fun _ => some 1 }

theorem Makes.short {rest : Bytes} {i j : ℕ} (h : Makes shortSystem [1, 2] rest i j) : ∀ b ∈ rest, b = 1 := by
  induction h with
  | done i => simp
  | write hwrite _ ih =>
    cases hwrite
    intro b hb
    rcases List.mem_append.mp hb with hb | hb
    · simpa [taken] using hb
    · exact ih b hb

/-- The second write takes the first byte of the block again. -/
theorem copyFile_short_write : ¬Faithful shortSystem ⟨false, false, false⟩ [1, 2] none fun _ => 0 := by
  rintro ⟨fuel, outcome, hrun, hcontent, hfailed⟩
  rw [copyFile_opens (fun _ _ => rfl) ⟨rfl, rfl, rfl, fun _ => rfl, rfl⟩] at hrun
  obtain ⟨c, hc, rfl⟩ := Option.map_eq_some_iff.mp hrun
  obtain ⟨w, hout, -, hcopies⟩ := copyBlocks_some hc (Bool.eq_false_iff.mpr fun hf => hfailed hf rfl)
  have hblock := hcopies (hout.symm.trans (Option.some.inj (hcontent rfl)))
  cases hblock with
  | block _ hread hmakes _ =>
    cases hread
    exact absurd (hmakes.short 2 (by decide)) (by decide)

end Open

end SomeOs.Cp
