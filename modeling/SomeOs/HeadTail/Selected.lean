import SomeOs.HeadTail.CatFile

/-! # What is selected

Lines and bytes are the units of a file. A count of delimiters leaves out a last line without its end, and `tail`
skips as many units as the number of the one that it is to start with.
-/
namespace SomeOs.HeadTail
open SomeOs.Units

inductive Program where
  | head
  | tail

def catFile (program : Program) (args : Arguments) (path : Bytes) (file : Option File) (junk : ℕ → UInt8) :
    Option Printed :=
  match program with
  | .head => Head.catFile args path file junk
  | .tail => Tail.catFile args path file

/-- The part of a file that the options ask for, by its lines or bytes. -/
def selected (program : Program) (args : Arguments) (content : Bytes) : Bytes :=
  let parts := units args.counted content
  match program, args.rev with
  | .head, false => (parts.take args.count.toNat).flatten
  | .head, true => (parts.take (parts.length - args.count.toNat)).flatten
  | .tail, false => (parts.drop (parts.length - args.count.toNat)).flatten
  | .tail, true => (parts.drop (args.count.toNat - 1)).flatten

/-- A block is one byte and ends at the byte `k`. -/
def SingleAt (blocks : List Bytes) (k : ℕ) : Prop :=
  ∃ before c after, blocks = before ++ [c] :: after ∧ before.flatten.length + 1 = k

/-- When the programs print what they are asked for. -/
def Exact (program : Program) (args : Arguments) (file : File) : Prop :=
  match program, args.rev with
  | .head, false => True
  | .head, true => args.count.toNat ≤ file.content.countP args.counted ∧ Ended args.counted file.content
  | .tail, false => Ended args.counted file.content ∨ file.content.countP args.counted < args.count.toNat
  | .tail, true =>
    args.count.toNat = 0 ∨ (units args.counted file.content).length < args.count.toNat ∨
      args.bytes = true ∧ SingleAt file.blocks args.count.toNat

variable {args : Arguments} {blocks : List Bytes} {buffer : Bytes} {endWithLast : Bool} {left : ℕ}

theorem counted_bytes (h : args.bytes = true) (c : UInt8) : args.counted c = true := by
  simp [Arguments.counted, h]

theorem counted_lines (h : args.bytes = false) (c : UInt8) : args.counted c = true ↔ c = args.delimiter := by
  simp [Arguments.counted, h]

theorem countP_bytes (h : args.bytes = true) (s : Bytes) : s.countP args.counted = s.length :=
  List.countP_eq_length.mpr fun c _ => counted_bytes h c

theorem countP_lines (h : args.bytes = false) (s : Bytes) : s.countP args.counted = s.count args.delimiter :=
  List.countP_congr fun c _ => by rw [counted_lines h, beq_iff_eq]

theorem feof_iff {rest : List Bytes} : feof endWithLast rest = true ↔ rest = [] ∧ endWithLast = true := by
  simp [feof]

theorem readAll_buffer (hne : ∀ b ∈ blocks, b ≠ []) (w : Whole) :
    (readAll args endWithLast blocks w).buffer = w.buffer ++ blocks.flatten ∧
      (readAll args endWithLast blocks w).total = w.total + blocks.flatten.countP args.counted := by
  induction blocks generalizing w with
  | nil => simp [readAll]
  | cons block rest ih =>
    obtain ⟨hblock, hrest⟩ := List.forall_mem_cons.mp hne
    have hcount : (if args.bytes then block.length else block.count args.delimiter) = block.countP args.counted := by
      split_ifs with h
      · exact (countP_bytes h block).symm
      · exact (countP_lines (by simpa using h) block).symm
    rw [readAll, List.flatten_cons, List.countP_append, hcount]
    by_cases hend : feof endWithLast rest = true
    · obtain ⟨rfl, -⟩ := feof_iff.mp hend
      simp [hend]
    · simp [hblock, hend, ih hrest, Nat.add_assoc]

theorem bind_printed_iff {printed : Option Bytes} {head out : Bytes} :
    (printed.bind fun out => some (⟨head ++ out, false⟩ : Printed)) = some ⟨head ++ out, false⟩ ↔ printed = some out := by
  cases printed <;> simp

theorem singleAt_cons {k : ℕ} {block : Bytes} {rest : List Bytes} : SingleAt (block :: rest) k ↔
    block.length = 1 ∧ k = 1 ∨ block.length < k ∧ SingleAt rest (k - block.length) := by
  constructor
  · rintro ⟨before, c, after, heq, hk⟩
    cases before with
    | nil =>
      obtain ⟨rfl, rfl⟩ := List.cons.inj heq
      exact Or.inl ⟨rfl, hk.symm⟩
    | cons b before =>
      obtain ⟨rfl, rfl⟩ := List.cons.inj heq
      rw [List.flatten_cons, List.length_append] at hk
      exact Or.inr ⟨by omega, before, c, after, rfl, by omega⟩
  · rintro (⟨hone, rfl⟩ | ⟨hlt, before, c, after, rfl, hk⟩)
    · obtain ⟨c, rfl⟩ := List.length_eq_one_iff.mp hone
      exact ⟨[], c, rest, rfl, rfl⟩
    · refine ⟨block :: before, c, after, rfl, ?_⟩
      rw [List.flatten_cons, List.length_append]
      omega

theorem left_eq (c : UInt8) (left : ℕ) : (if args.bytes then left else if c = args.delimiter then left else left + 1) =
    if args.counted c then left else left + 1 := by
  by_cases hbytes : args.bytes = true
  · rw [if_pos hbytes, if_pos (counted_bytes hbytes c)]
  · simp only [counted_lines (by simpa using hbytes : args.bytes = false), hbytes]
    rfl

namespace Head

theorem cutBlock_eq (h : args.bytes = false) (hleft : 0 < left) (i : ℕ) :
    cutBlock args.delimiter buffer i left (i + buffer.length) =
      (left - buffer.countP args.counted, i + (firsts args.counted left buffer).length) := by
  induction buffer generalizing i left with
  | nil => simp [cutBlock]
  | cons c buffer ih =>
    obtain ⟨left, rfl⟩ := Nat.exists_eq_add_one.mpr hleft
    have hlen : i + (c :: buffer).length = i + 1 + buffer.length := by
      rw [List.length_cons]
      omega
    rw [cutBlock, firsts, Nat.add_sub_cancel, hlen]
    by_cases hc : c = args.delimiter
    · have hp := (counted_lines h c).mpr hc
      rw [if_pos hc, if_pos hp, List.countP_cons_of_pos hp]
      by_cases hzero : left = 0
      · simp [hzero]
      · rw [if_neg hzero, ih (Nat.pos_of_ne_zero hzero), List.length_cons]
        simp only [Nat.add_sub_add_right, Prod.mk.injEq, true_and]
        omega
    · have hp := mt (counted_lines h c).mp hc
      rw [if_neg hc, if_neg hp, List.countP_cons_of_neg hp, ih hleft, List.length_cons]
      simp only [Prod.mk.injEq, true_and]
      omega

theorem cut_eq (hleft : 0 < left) : cut args buffer left =
    (left - buffer.countP args.counted, (firsts args.counted left buffer).length) := by
  unfold cut
  by_cases hbytes : args.bytes = true
  · rw [if_pos hbytes]
    have hlen := congrArg List.length (firsts_append_skip (p := args.counted) left buffer)
    rw [List.length_append, skip_eq_drop (counted_bytes hbytes), List.length_drop] at hlen
    rw [countP_bytes hbytes]
    simp only [Prod.mk.injEq]
    by_cases hlong : buffer.length > left
    · simp only [hlong, if_true]
      omega
    · simp only [hlong, if_false, true_and]
      omega
  · rw [if_neg hbytes]
    have hcut := @cutBlock_eq args buffer left (by simpa using hbytes) hleft 0
    rwa [Nat.zero_add, Nat.zero_add] at hcut

theorem printBlocks_eq (hne : ∀ b ∈ blocks, b ≠ []) (left : ℕ) :
    printBlocks args endWithLast blocks left = firsts args.counted left blocks.flatten := by
  induction blocks generalizing left with
  | nil => simp [printBlocks]
  | cons block rest ih =>
    obtain ⟨hblock, hrest⟩ := List.forall_mem_cons.mp hne
    rw [printBlocks]
    by_cases hleft : left = 0
    · simp [hleft]
    · have hpos := Nat.pos_of_ne_zero hleft
      have hsize : (firsts args.counted left block).length ≠ 0 := fun h =>
        firsts_ne_nil hpos hblock (List.length_eq_zero_iff.mp h)
      rw [if_neg hleft, cut_eq hpos, List.flatten_cons, firsts_append_eq]
      simp only [take_length_firsts, hsize, false_or]
      by_cases hend : feof endWithLast rest = true
      · obtain ⟨rfl, -⟩ := feof_iff.mp hend
        simp [hend]
      · rw [if_neg hend, ih hrest]

theorem printKept_eq {memory : Bytes} (h : left ≤ memory.countP args.counted) :
    printKept args memory left = some (firsts args.counted left memory) := by
  induction memory generalizing left with
  | nil =>
    obtain rfl : left = 0 := Nat.le_zero.mp h
    rfl
  | cons c memory ih =>
    cases left with
    | zero =>
      rw [firsts_zero]
      rfl
    | succ left =>
      rw [printKept, left_eq, firsts]
      by_cases hp : args.counted c = true
      · rw [List.countP_cons_of_pos hp] at h
        simp [hp, ih (Nat.le_of_succ_le_succ h)]
      · rw [List.countP_cons_of_neg hp] at h
        simp [hp, ih h]

theorem printKept_ne_nil {memory : Bytes} (hleft : 0 < left) : printKept args memory left ≠ some [] := by
  obtain ⟨left, rfl⟩ := Nat.exists_eq_add_one.mpr hleft
  cases memory with
  | nil => exact fun h => Option.some_ne_none _ h.symm
  | cons c memory =>
    intro h
    obtain ⟨out, -, hout⟩ := Option.bind_eq_some_iff.mp h
    cases hout

end Head

namespace Tail

theorem cutBlock_eq (h : args.bytes = false) (hleft : 0 < left) (i : ℕ) :
    cutBlock args.delimiter buffer i left = (left - buffer.countP args.counted,
      if buffer.countP args.counted < left then 0 else i + (firsts args.counted left buffer).length) := by
  induction buffer generalizing i left with
  | nil => simp [cutBlock, hleft]
  | cons c buffer ih =>
    obtain ⟨left, rfl⟩ := Nat.exists_eq_add_one.mpr hleft
    rw [cutBlock, firsts, Nat.add_sub_cancel]
    by_cases hc : c = args.delimiter
    · have hp := (counted_lines h c).mpr hc
      rw [if_pos hc, if_pos hp, List.countP_cons_of_pos hp]
      by_cases hzero : left = 0
      · simp [hzero]
      · rw [if_neg hzero, ih (Nat.pos_of_ne_zero hzero), List.length_cons]
        simp only [Nat.add_sub_add_right, Nat.add_lt_add_iff_right, Nat.add_assoc, Nat.add_comm 1]
    · have hp := mt (counted_lines h c).mp hc
      rw [if_neg hc, if_neg hp, List.countP_cons_of_neg hp, ih hleft, List.length_cons]
      simp only [Nat.add_assoc, Nat.add_comm 1]

theorem printBlocks_zero (hne : ∀ b ∈ blocks, b ≠ []) : printBlocks args endWithLast blocks 0 = blocks.flatten := by
  induction blocks with
  | nil => rfl
  | cons block rest ih =>
    obtain ⟨hblock, hrest⟩ := List.forall_mem_cons.mp hne
    by_cases hend : feof endWithLast rest = true
    · obtain ⟨rfl, -⟩ := feof_iff.mp hend
      simp [printBlocks, cut, hend]
    · simp [printBlocks, cut, hblock, hend, ih hrest]

theorem printKept_zero : ∀ buffer, printKept args buffer 0 = buffer
  | [] => rfl
  | _ :: buffer => congrArg _ (printKept_zero buffer)

theorem printKept_eq : printKept args buffer left = skip args.counted left buffer := by
  induction buffer generalizing left with
  | nil => simp [printKept]
  | cons c buffer ih =>
    cases left with
    | zero => rw [skip_zero, printKept_zero]
    | succ left =>
      rw [printKept, left_eq, skip, ih]
      split_ifs <;> rfl

/-- When the last unit to be skipped ends a block, the loop takes the empty rest of the block for the end. -/
theorem printBlocks_lines (h : args.bytes = false) (hne : ∀ b ∈ blocks, b ≠ []) (hleft : 0 < left) :
    printBlocks args endWithLast blocks left = [] ∨
      printBlocks args endWithLast blocks left = skip args.counted left blocks.flatten := by
  induction blocks generalizing left with
  | nil => exact Or.inl rfl
  | cons block rest ih =>
    obtain ⟨hblock, hrest⟩ := List.forall_mem_cons.mp hne
    rw [printBlocks, cut, if_pos hleft, h, cutBlock_eq h hleft, List.flatten_cons]
    simp only [Bool.false_eq_true, if_false, Nat.zero_add]
    by_cases hcount : block.countP args.counted < left
    · rw [skip_append hcount]
      have hleft' : 0 < left - block.countP args.counted := Nat.sub_pos_of_lt hcount
      by_cases hend : feof endWithLast rest = true
      · simp [hcount, hleft'.ne', hend]
      · simpa [hcount, hleft'.ne', hend, hblock] using ih hrest hleft'
    · rw [not_lt] at hcount
      rw [skip_append_of_le hcount, Nat.sub_eq_zero_of_le hcount, if_neg (not_lt.mpr hcount), drop_length_firsts,
        printBlocks_zero hrest]
      by_cases hfull : block.length - (firsts args.counted left block).length = 0
      · left
        rw [← drop_length_firsts, List.drop_eq_nil_of_le (Nat.le_of_sub_eq_zero hfull)]
        simp [hfull]
      · right
        by_cases hend : feof endWithLast rest = true
        · obtain ⟨rfl, -⟩ := feof_iff.mp hend
          simp [hend]
        · simp [hend, hfull]

theorem printBlocks_bytes_short (h : args.bytes = true) (hne : ∀ b ∈ blocks, b ≠ [])
    (hleft : blocks.flatten.length < left) : printBlocks args endWithLast blocks left = [] := by
  induction blocks generalizing left with
  | nil => rfl
  | cons block rest ih =>
    obtain ⟨hblock, hrest⟩ := List.forall_mem_cons.mp hne
    rw [List.flatten_cons, List.length_append] at hleft
    have hcut : cut args block left = (left - block.length, 0) := by
      rw [cut, if_pos (Nat.zero_lt_of_lt hleft), if_pos h, if_neg (by omega)]
    rw [printBlocks, hcut]
    simp only [Nat.sub_eq_zero_iff_le, ih hrest (show rest.flatten.length < left - block.length by omega)]
    simp
    omega

theorem printBlocks_cut {block : Bytes} {rest : List Bytes} {start : ℕ} (hcut : cut args block left = (0, start))
    (hstart : start < block.length) (hrest : ∀ b ∈ rest, b ≠ []) :
    printBlocks args endWithLast (block :: rest) left = block.drop start ++ rest.flatten := by
  rw [printBlocks, hcut]
  by_cases hend : feof endWithLast rest = true
  · obtain ⟨rfl, -⟩ := feof_iff.mp hend
    simp [hend]
  · simp [hend, Nat.sub_eq_zero_iff_le, hstart, printBlocks_zero hrest]

/-- A block that ends at the last byte to be skipped is printed as a whole, which is right when it is one byte. -/
theorem printBlocks_bytes_iff (h : args.bytes = true) (hne : ∀ b ∈ blocks, b ≠ []) (hleft : 0 < left)
    (hle : left ≤ blocks.flatten.length) :
    printBlocks args endWithLast blocks left = blocks.flatten.drop (left - 1) ↔ SingleAt blocks left := by
  induction blocks generalizing left with
  | nil => exact absurd (lt_of_lt_of_le hleft hle) (lt_irrefl 0)
  | cons block rest ih =>
    obtain ⟨hblock, hrest⟩ := List.forall_mem_cons.mp hne
    have hpos := List.length_pos_iff.mpr hblock
    rw [List.flatten_cons, List.length_append] at hle
    rw [singleAt_cons]
    rcases lt_trichotomy left block.length with hlt | heq | hgt
    · have hcut : cut args block left = (0, left) := by rw [cut, if_pos hleft, if_pos h, if_pos hlt]
      rw [printBlocks_cut hcut hlt hrest, List.flatten_cons]
      constructor
      · intro heq
        have hlen := congrArg List.length heq
        simp only [List.length_append, List.length_drop] at hlen
        omega
      · rintro (⟨hone, -⟩ | ⟨hcon, -⟩) <;> omega
    · have hcut : cut args block left = (0, 0) := by
        rw [cut, if_pos hleft, if_pos h, if_neg heq.ge.not_gt, heq, Nat.sub_self]
      rw [printBlocks_cut hcut hpos hrest, List.flatten_cons, List.drop_zero]
      constructor
      · intro hdrop
        have hlen := congrArg List.length hdrop
        simp only [List.length_append, List.length_drop] at hlen
        omega
      · rintro (⟨-, rfl⟩ | ⟨hcon, -⟩)
        · rfl
        · omega
    · have hcut : cut args block left = (left - block.length, 0) := by
        rw [cut, if_pos hleft, if_pos h, if_neg hgt.not_gt]
      have hrest_ne : ¬feof endWithLast rest = true := fun hend => by
        obtain ⟨rfl, -⟩ := feof_iff.mp hend
        rw [List.flatten_nil, List.length_nil] at hle
        omega
      have hout : printBlocks args endWithLast (block :: rest) left =
          printBlocks args endWithLast rest (left - block.length) := by
        rw [printBlocks, hcut]
        simp [hrest_ne, hblock, (Nat.sub_pos_of_lt hgt).ne']
      have hdrop : (block :: rest).flatten.drop (left - 1) = rest.flatten.drop (left - block.length - 1) := by
        rw [List.flatten_cons, List.drop_append, List.drop_eq_nil_of_le (by omega), List.nil_append,
          Nat.sub_right_comm]
      rw [hout, hdrop, ih hrest (Nat.sub_pos_of_lt hgt) (by omega)]
      constructor
      · exact fun hsingle => Or.inr ⟨hgt, hsingle⟩
      · rintro (⟨-, rfl⟩ | ⟨-, hsingle⟩)
        · omega
        · exact hsingle

end Tail

section
variable {p : UInt8 → Bool} {content : Bytes} {k : ℕ}

theorem firsts_countP_iff (h : k ≤ content.countP p) :
    firsts p (content.countP p - k) content = firsts p ((units p content).length - k) content ↔ Ended p content := by
  constructor
  · intro heq
    by_contra hended
    have hlen := (length_units content).2 hended
    have hlt : (firsts p (content.countP p - k) content).length < (firsts p ((units p content).length - k) content).length :=
      length_firsts_lt (by omega) (by omega)
    rw [heq] at hlt
    exact lt_irrefl _ hlt
  · intro hended
    rw [(length_units content).1 hended]

theorem skip_countP_iff :
    skip p (content.countP p - k) content = skip p ((units p content).length - k) content ↔
      Ended p content ∨ content.countP p < k := by
  by_cases hended : Ended p content
  · simp [(length_units content).1 hended, hended]
  · have hlen := (length_units content).2 hended
    simp only [hended, false_or]
    constructor
    · intro heq
      by_contra hle
      have hlt : (skip p ((units p content).length - k) content).length < (skip p (content.countP p - k) content).length :=
        length_skip_lt (by omega) (by omega)
      rw [heq] at hlt
      exact lt_irrefl _ hlt
    · intro hlt
      rw [Nat.sub_eq_zero_of_le hlt.le, Nat.sub_eq_zero_of_le (by omega)]

end

theorem head_rev_iff {content : Bytes} (hsize : content.length < 2 ^ 64) {k : ℕ} (hk : k < 2 ^ 64) (rest : Bytes) :
    Head.printKept args (content ++ rest) ((content.countP args.counted + 2 ^ 64 - k) % 2 ^ 64) =
        some (firsts args.counted ((units args.counted content).length - k) content) ↔
      k ≤ content.countP args.counted ∧ Ended args.counted content := by
  have htotal : content.countP args.counted ≤ content.length := List.countP_le_length
  by_cases hle : k ≤ content.countP args.counted
  · have hleft : (content.countP args.counted + 2 ^ 64 - k) % 2 ^ 64 = content.countP args.counted - k := by omega
    have hcount : content.countP args.counted - k ≤ content.countP args.counted := Nat.sub_le _ _
    rw [hleft, Head.printKept_eq (by rw [List.countP_append]; omega), firsts_append_of_le hcount, Option.some_inj,
      firsts_countP_iff hle]
    exact (and_iff_right hle).symm
  · have hunits : (units args.counted content).length ≤ k := by
      by_cases hended : Ended args.counted content
      · rw [(length_units content).1 hended]
        exact (not_le.mp hle).le
      · rw [(length_units content).2 hended]
        exact not_le.mp hle
    rw [Nat.sub_eq_zero_of_le hunits, firsts_zero]
    exact iff_of_false (Head.printKept_ne_nil (by omega)) fun h => hle h.1

theorem tail_last_iff {content : Bytes} {k : ℕ} :
    Tail.printKept args content
        (content.countP args.counted - if content.countP args.counted > k then k else content.countP args.counted) =
        skip args.counted ((units args.counted content).length - k) content ↔
      Ended args.counted content ∨ content.countP args.counted < k := by
  have hleft : (content.countP args.counted - if content.countP args.counted > k then k else content.countP args.counted) =
      content.countP args.counted - k := by
    split_ifs <;> omega
  rw [hleft, Tail.printKept_eq, skip_countP_iff]

theorem tail_from_iff (hne : ∀ b ∈ blocks, b ≠ []) {k : ℕ} :
    Tail.printBlocks args endWithLast blocks k = skip args.counted (k - 1) blocks.flatten ↔
      k = 0 ∨ (units args.counted blocks.flatten).length < k ∨ args.bytes = true ∧ SingleAt blocks k := by
  by_cases hzero : k = 0
  · subst hzero
    simp [Tail.printBlocks_zero hne]
  · have hpos := Nat.pos_of_ne_zero hzero
    simp only [hzero, false_or]
    by_cases hmany : (units args.counted blocks.flatten).length < k
    · rw [skip_eq_nil (Nat.le_sub_one_of_lt hmany)]
      refine iff_of_true ?_ (Or.inl hmany)
      by_cases hbytes : args.bytes = true
      · rw [length_units_eq_length (counted_bytes hbytes)] at hmany
        exact Tail.printBlocks_bytes_short hbytes hne hmany
      · rcases Tail.printBlocks_lines (by simpa using hbytes) hne hpos with h | h
        · exact h
        · rw [h, skip_eq_nil hmany.le]
    · simp only [hmany, false_or]
      rw [not_lt] at hmany
      by_cases hbytes : args.bytes = true
      · rw [length_units_eq_length (counted_bytes hbytes)] at hmany
        rw [skip_eq_drop (counted_bytes hbytes), Tail.printBlocks_bytes_iff hbytes hne hpos hmany]
        exact (and_iff_right hbytes).symm
      · have hlt : (skip args.counted k blocks.flatten).length < (skip args.counted (k - 1) blocks.flatten).length :=
          length_skip_lt (by omega) (by omega)
        refine iff_of_false (fun heq => ?_) fun h => hbytes h.1
        rw [← heq] at hlt
        rcases Tail.printBlocks_lines (by simpa using hbytes) hne hpos with h | h
        · rw [h] at hlt
          exact Nat.not_lt_zero _ hlt
        · rw [h] at hlt
          exact lt_irrefl _ hlt

/-- Both programs print what they are asked for, and stay in the buffer, exactly under these conditions: the last
units are counted from the end only if the last one has its end, `head` must have as many as it is to leave out, and
`tail` starts at the right one only if there is none to skip or nothing to print. -/
theorem catFile_selects (program : Program) (args : Arguments) (path : Bytes) (file : File) (junk : ℕ → UInt8) :
    catFile program args path (some file) junk =
        some ⟨header args path ++ selected program args file.content, false⟩ ↔ Exact program args file := by
  obtain ⟨hbuffer, htotal⟩ := @readAll_buffer args file.blocks file.endWithLast file.nonempty ⟨[], 0, 0⟩
  rw [List.nil_append] at hbuffer
  rw [Nat.zero_add] at htotal
  cases program with
  | head =>
    cases hrev : args.rev with
    | false => simp [catFile, Head.catFile, selected, Exact, hrev, flatten_take_units, File.content,
        Head.printBlocks_eq file.nonempty]
    | true =>
      have hrest := @head_rev_iff args file.content file.addressable _ args.count.toNat_lt
        ((List.range ((readAll args file.endWithLast file.blocks ⟨[], 0, 0⟩).allocated - file.content.length)).map junk)
      simp only [catFile, Head.catFile, selected, Exact, hrev, Whole.memory, hbuffer, htotal, flatten_take_units]
      rw [← hrest]
      exact bind_printed_iff
  | tail =>
    cases hrev : args.rev with
    | false =>
      simp only [catFile, Tail.catFile, selected, Exact, hrev, hbuffer, htotal, flatten_drop_units]
      rw [← tail_last_iff]
      simp [File.content]
    | true =>
      simp only [catFile, Tail.catFile, selected, Exact, hrev, flatten_drop_units, File.content]
      rw [← @tail_from_iff args file.blocks file.endWithLast file.nonempty]
      simp

/-- `tail -n +1` leaves out the first line. -/
theorem tail_from_first :
    let args : Arguments := ⟨false, true, 1, false, false, false, [[]]⟩
    let file : File := ⟨[[97, 10, 98]], true, by decide, by decide, by decide⟩
    catFile .tail args [] (some file) (fun _ => 0) ≠ some ⟨header args [] ++ selected .tail args file.content, false⟩ := by
  decide

end SomeOs.HeadTail
