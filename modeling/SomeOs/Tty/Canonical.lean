import SomeOs.Tty.Delimiters

/-! # Canonical input

An editor of lines works on the whole input, without a buffer and without reads: erasing and
killing stop at the last delimiter. The terminal does the same while it does not lose one, and
its reads return the edited lines one after the other.
-/
namespace SomeOs.Tty
open ListEnds Transition

def Termios.isEof (ctrl : Termios) (c : UInt8) : Bool := c == ctrl.cc .veof && c != newline && c != ctrl.cc .veol

def InputAction.edit (ctrl : Termios) : InputAction → List UInt8 → List UInt8
  | .ignore, q => q
  | .erase, q => if ∃ c ∈ q.getLast?, ctrl.isDelim c then q else q.dropLast
  | .kill, q => q.rdropWhile (¬ctrl.isDelim ·)
  | .append c, q => q ++ [c]

def Termios.edited (ctrl : Termios) (input : List UInt8) : List UInt8 :=
  input.foldl (fun q c => (inputAction ctrl c).edit ctrl q) []

/-- A terminal with the bytes that it has received and the data that reads have returned. -/
structure TtySession where
  dev : UartTtyDevice
  received : List UInt8
  returned : List (List UInt8)

inductive SessionStep where
  | receive (byte : Option UInt8)
  | read (time task size : ℕ) (signals block : Bool)

namespace TtySession
open UartTtyDevice

def step (s : TtySession) : SessionStep → Option TtySession
  | .receive byte => (s.dev.basicTtyRead byte).map fun dev => { s with dev := dev, received := s.received ++ byte.toList }
  | .read time task size signals block =>
    match s.dev.uartTtyReadOrWait time task size signals block with
    | (.success data, dev) => some { s with dev := dev, returned := s.returned ++ [data] }
    | (_, dev) => some { s with dev := dev }

/-- The buffer is not overfull, a finished line is not edited, and a `VEOF` at the front after a
read has ended this read and has nothing behind it. -/
def LineStep (s : TtySession) : SessionStep → Prop
  | .receive byte => ¬s.dev.Truncates ∧
      ∀ c ∈ byte, (inputAction s.dev.ctrl c = .erase → ∀ d ∈ s.dev.contents.getLast?, ¬s.dev.ctrl.isDelim d) ∧
        (inputAction s.dev.ctrl c = .kill → ∀ d ∈ s.dev.contents, ¬s.dev.ctrl.isDelim d)
  | .read time _ size _ _ => s.dev.canReturnRead time → s.dev.EofAfter (s.dev.readLength size) →
    (∀ c ∈ (s.dev.contents.take (s.dev.readLength size)).getLast?, ¬s.dev.ctrl.isDelim c) ∧
      ∀ c ∈ s.dev.contents.drop (s.dev.readLength size), c = s.dev.ctrl.cc .veof ∧ s.dev.ctrl.isEof c

instance (s : TtySession) : ∀ a, Decidable (s.LineStep a)
  | .receive _ => inferInstanceAs (Decidable (_ ∧ _))
  | .read _ _ _ _ _ => inferInstanceAs (Decidable (_ → _ → _))

def create (memory : ByteStore.Store) (ctrl : Termios) : TtySession :=
  ⟨{ createUartTtyDevice memory with ctrl := ctrl }, [], []⟩

end TtySession

/-- A read that returned data, and whether a `VEOF` has ended it. -/
structure LineRead where
  data : List UInt8
  eof : Bool

def LineRead.bytes (ctrl : Termios) (r : LineRead) : List UInt8 :=
  r.data ++ if r.eof then [ctrl.cc .veof] else []

/-- At most one line, and no `VEOF` in the data. -/
structure LineRead.Ok (ctrl : Termios) (r : LineRead) : Prop where
  line : ∀ c ∈ r.data.dropLast, ¬ctrl.isDelim c
  data : ∀ c ∈ r.data, ¬ctrl.isEof c
  eof : r.eof → ctrl.isEof (ctrl.cc .veof) ∧ ∀ c ∈ r.data, ¬ctrl.isDelim c

/-- The reads so far and what is buffered are the edited input. -/
structure Faithful (ctrl : Termios) (s : TtySession) : Prop where
  counted : UartTtyDevice.Counted s.dev
  ctrl_eq : s.dev.ctrl = ctrl
  reads : ∃ reads : List LineRead, reads.map LineRead.data = s.returned ∧ (∀ r ∈ reads, r.Ok ctrl) ∧
    reads.flatMap (LineRead.bytes ctrl) ++ s.dev.contents = ctrl.edited s.received ∧
    ((∃ c ∈ s.dev.contents, ctrl.isDelim c) ∨
      ∀ c ∈ (reads.flatMap (LineRead.bytes ctrl)).getLast?, ctrl.isDelim c)

namespace Termios
variable {ctrl : Termios} {q q' : List UInt8} {c : UInt8} {n : ℕ}

theorem edited_append {input : List UInt8} : ctrl.edited (input ++ [c]) = (inputAction ctrl c).edit ctrl (ctrl.edited input) := by
  simp [edited]

theorem lineEnd_split (h : ctrl.lineEnd q = some n) : ∃ line d rest, q = line ++ d :: rest ∧
    (∀ c ∈ line, ¬ctrl.isDelim c) ∧ ((n = line.length + 1 ∧ (d = newline ∨ d = ctrl.cc .veol)) ∨
      (n = line.length ∧ d = ctrl.cc .veof ∧ ctrl.isEof d)) := by
  induction q generalizing n with
  | nil => cases h
  | cons c q ih =>
    unfold lineEnd at h
    split_ifs at h with h1 h2
    · cases h
      exact ⟨[], c, q, rfl, by simp, Or.inl ⟨rfl, h1⟩⟩
    · cases h
      refine ⟨[], c, q, rfl, by simp, Or.inr ⟨rfl, h2, ?_⟩⟩
      rw [not_or] at h1
      simp [isEof, ← h2, h1.1, h1.2]
    · obtain ⟨m, hm, rfl⟩ := Option.map_eq_some_iff.mp h
      obtain ⟨line, d, rest, rfl, hline, hend⟩ := ih hm
      refine ⟨c :: line, d, rest, rfl, ?_, ?_⟩
      · have hc : ¬ctrl.isDelim c := fun hd => (isDelim_iff.mp hd).elim h1 h2
        simpa [hc] using hline
      · simpa using hend

/-- An action on the part of the input that is still buffered. -/
theorem edit_buffered {taken : List UInt8} {action : InputAction}
    (herase : action = .erase → ∀ d ∈ q.getLast?, ¬ctrl.isDelim d) (hkill : action = .kill → ∀ d ∈ q, ¬ctrl.isDelim d)
    (hline : (∃ c ∈ q, ctrl.isDelim c) ∨ ∀ c ∈ taken.getLast?, ctrl.isDelim c) :
    action.edit ctrl (taken ++ q) = taken ++ action.apply q ∧
      ((∃ c ∈ action.apply q, ctrl.isDelim c) ∨ ∀ c ∈ taken.getLast?, ctrl.isDelim c) := by
  cases action with
  | ignore => exact ⟨rfl, hline⟩
  | erase =>
    rcases List.eq_nil_or_concat q with rfl | ⟨l, c, rfl⟩
    · have hlast : ∀ c ∈ taken.getLast?, ctrl.isDelim c := hline.resolve_left (by simp)
      refine ⟨?_, Or.inr hlast⟩
      simp only [InputAction.edit, InputAction.apply, List.append_nil, List.dropLast_nil]
      rcases List.eq_nil_or_concat taken with rfl | ⟨t, c, rfl⟩
      · rfl
      · exact if_pos ⟨c, by simp, hlast c (by simp)⟩
    · have hc : ¬ctrl.isDelim c := herase rfl c (by simp)
      simp only [List.concat_eq_append] at hline ⊢
      refine ⟨?_, hline.imp_left ?_⟩
      · simp only [InputAction.edit, InputAction.apply]
        rw [← List.append_assoc, if_neg (by simpa using hc), List.dropLast_concat, List.dropLast_concat]
      · rintro ⟨d, hd, hdelim⟩
        rcases List.mem_append.mp hd with hd | hd
        · exact ⟨d, by simpa [InputAction.apply] using hd, hdelim⟩
        · exact absurd (List.mem_singleton.mp hd ▸ hdelim) hc
  | kill =>
    have hnone := hkill rfl
    have hlast : ∀ c ∈ taken.getLast?, ctrl.isDelim c := by
      refine hline.resolve_left ?_
      rintro ⟨c, hc, hdelim⟩
      exact hnone c hc hdelim
    refine ⟨?_, Or.inr hlast⟩
    simp only [InputAction.edit, InputAction.apply, List.append_nil]
    exact rdropWhile_append (by simpa using hlast) (by simpa using hnone)
  | append c =>
    refine ⟨List.append_assoc .., hline.imp_left ?_⟩
    rintro ⟨d, hd, hdelim⟩
    exact ⟨d, List.mem_append_left _ hd, hdelim⟩

theorem isDelim_of_isEof (h : ctrl.isEof c) : ctrl.isDelim c := by
  simp only [isEof, Bool.and_eq_true, beq_iff_eq] at h
  exact isDelim_iff.mpr (Or.inr h.1.1)

/-- A part of the first line, and what is behind it. -/
theorem take_line {length : ℕ} (h : ctrl.lineEnd q = some n) (hlen : length ≤ n) :
    (∀ c ∈ (q.take length).dropLast, ¬ctrl.isDelim c) ∧ (∀ c ∈ q.take length, ¬ctrl.isEof c) ∧
      ((∃ c ∈ q.drop length, ctrl.isDelim c) ∨ ∃ c ∈ (q.take length).getLast?, ctrl.isDelim c) := by
  obtain ⟨line, d, rest, rfl, hline, hend⟩ := lineEnd_split h
  have hdelim : ctrl.isDelim d := isDelim_iff.mpr (hend.imp (·.2) (·.2.1))
  rcases Nat.lt_or_ge line.length length with hlt | hle
  · obtain ⟨hn, hd⟩ : n = line.length + 1 ∧ (d = newline ∨ d = ctrl.cc .veol) :=
      hend.resolve_right fun heof => by omega
    have hlength : length = line.length + 1 := by omega
    have htake : (line ++ d :: rest).take length = line ++ [d] := by
      rw [hlength, List.take_append]
      simp
    have hdrop : (line ++ d :: rest).drop length = rest := by
      rw [hlength, List.drop_append]
      simp
    rw [htake, hdrop]
    have hnot : ¬ctrl.isEof d := by
      simp only [isEof, Bool.and_eq_true, bne_iff_ne, not_and_or]
      exact hd.elim (fun h => Or.inl (Or.inr (by simpa using h))) (fun h => Or.inr (by simpa using h))
    refine ⟨by simpa using hline, fun c hc => ?_, Or.inr ⟨d, by simp, hdelim⟩⟩
    rcases List.mem_append.mp hc with hc | hc
    · exact fun heof => hline c hc (isDelim_of_isEof heof)
    · rwa [List.mem_singleton.mp hc]
  · have htake : (line ++ d :: rest).take length = line.take length := List.take_append_of_le_length hle
    have hdrop : (line ++ d :: rest).drop length = line.drop length ++ d :: rest := List.drop_append_of_le_length hle
    rw [htake, hdrop]
    have hmem : ∀ c ∈ line.take length, ¬ctrl.isDelim c := fun c hc => hline c (List.mem_of_mem_take hc)
    exact ⟨fun c hc => hmem c (List.mem_of_mem_dropLast hc), fun c hc heof => hmem c hc (isDelim_of_isEof heof),
      Or.inl ⟨d, by simp, hdelim⟩⟩

end Termios

section Runs
open UartTtyDevice TtySession
variable {ctrl : Termios} {s s' : TtySession}

theorem countStep_of_lineStep {byte : Option UInt8} (hok : s.LineStep (.receive byte)) :
    s.dev.CountStep (.receive byte) := by
  have hkept : s.dev.kept = s.dev.contents := if_neg hok.1
  refine ⟨fun htrunc => absurd htrunc hok.1, fun c hc => ?_⟩
  rw [hkept]
  exact hok.2 c hc

theorem Faithful.receive (h : Faithful ctrl s) {byte : Option UInt8} (hok : s.LineStep (.receive byte))
    (hs : s.step (.receive byte) = some s') : Faithful ctrl s' := by
  obtain ⟨dev, hdev, rfl⟩ := Option.map_eq_some_iff.mp hs
  obtain ⟨-, hcontents, -, hsame⟩ := basicTtyRead_spec h.counted.ring hdev
  obtain ⟨reads, hreturned, hreads, hall, hline⟩ := h.reads
  have hkept : s.dev.kept = s.dev.contents := if_neg hok.1
  refine ⟨h.counted.receive (countStep_of_lineStep hok) hdev, hsame.ctrl.trans h.ctrl_eq, reads, hreturned, hreads, ?_⟩
  dsimp only
  rw [hcontents, contentsAfter, hkept]
  cases byte with
  | none =>
    simp only [Option.elim_none, Option.toList_none, List.append_nil]
    exact ⟨hall, hline⟩
  | some c =>
    obtain ⟨herase, hkill⟩ := hok.2 c rfl
    rw [h.ctrl_eq] at herase hkill ⊢
    obtain ⟨hedit, hline'⟩ := Termios.edit_buffered herase hkill hline
    refine ⟨?_, hline'⟩
    simp only [Option.elim_some, Option.toList_some]
    rw [Termios.edited_append, ← hall, hedit]

theorem cons_dropLast {a : UInt8} {q : List UInt8} (hq : q ≠ []) (h : ∀ c ∈ q, c = a) : a :: q.dropLast = q := by
  obtain ⟨k, hk⟩ : ∃ k, q = List.replicate (k + 1) a := by
    refine ⟨q.length - 1, ?_⟩
    have hpos := List.length_pos_iff.mpr hq
    rw [Nat.sub_add_cancel hpos]
    exact List.eq_replicate_of_mem h
  rw [hk, List.dropLast_replicate]
  rfl

/-- A read of a line or of a part of it. -/
theorem Faithful.success (h : Faithful ctrl s) (hmode : ctrl.mode icanon) {time size : ℕ}
    (hready : s.dev.canReturnRead time)
    (hok : s.dev.EofAfter (s.dev.readLength size) →
      (∀ c ∈ (s.dev.contents.take (s.dev.readLength size)).getLast?, ¬ctrl.isDelim c) ∧
        ∀ c ∈ s.dev.contents.drop (s.dev.readLength size), c = ctrl.cc .veof ∧ ctrl.isEof c) :
    Faithful ctrl { s with
      dev := s.dev.finishRead (s.dev.readLength size)
      returned := s.returned ++ [s.dev.contents.take (s.dev.readLength size)] } := by
  obtain ⟨-, hcontents, -, hctrl, -⟩ := finishRead_spec h.counted.ring (@readLength_le s.dev size)
  obtain ⟨reads, hreturned, hreads, hall, -⟩ := h.reads
  have hdelim : (s.dev.ctrl.lineEnd s.dev.contents).isSome := by
    rw [Termios.lineEnd_isSome, ← List.countP_pos_iff]
    have hcount := (canReturnRead_canonical (h.ctrl_eq ▸ hmode)).mp hready
    rwa [UInt64.lt_iff_toNat_lt, h.counted.exact] at hcount
  obtain ⟨n, hn⟩ := Option.isSome_iff_exists.mp hdelim
  have hlength : s.dev.readLength size = min n size := by
    unfold readLength
    rw [if_pos (h.ctrl_eq ▸ hmode), bufferLineLength_eq, hn, Option.getD_some]
  have hle : s.dev.readLength size ≤ n := hlength.trans_le (min_le_left ..)
  rw [h.ctrl_eq] at hn
  obtain ⟨hdata, hnoeof, hbehind⟩ := Termios.take_line hn hle
  have hsplit : s.dev.contents.take (s.dev.readLength size) ++ s.dev.contents.drop (s.dev.readLength size) =
      s.dev.contents := List.take_append_drop ..
  by_cases hafter : s.dev.EofAfter (s.dev.readLength size)
  · obtain ⟨hnolast, hrest⟩ := hok hafter
    have hmem : ctrl.cc .veof ∈ s.dev.contents.drop (s.dev.readLength size) := by
      rw [← h.ctrl_eq]
      exact List.mem_of_mem_head? hafter.2
    have hveof : ctrl.isEof (ctrl.cc .veof) := (hrest _ hmem).2
    have hnodelim : ∀ c ∈ s.dev.contents.take (s.dev.readLength size), ¬ctrl.isDelim c :=
      forall_mem_of_dropLast hdata hnolast
    rw [if_pos hafter] at hcontents
    have hrest' := cons_dropLast (List.ne_nil_of_mem hmem) fun c hc => (hrest c hc).1
    refine ⟨h.counted.finishRead readLength_le fun _ c hc => ?_, hctrl.trans h.ctrl_eq,
      reads ++ [⟨s.dev.contents.take (s.dev.readLength size), true⟩], ?_, ?_, ?_, Or.inr ?_⟩
    · rw [← hsplit, List.getLast?_append_of_ne_nil _ (List.ne_nil_of_mem hmem)] at hc
      rw [h.ctrl_eq]
      exact Termios.isDelim_of_isEof (hrest c (List.mem_of_getLast? hc)).2
    · rw [List.map_append, hreturned]
      rfl
    · intro r hr
      rcases List.mem_append.mp hr with hr | hr
      · exact hreads r hr
      · rw [List.mem_singleton.mp hr]
        exact ⟨hdata, hnoeof, fun _ => ⟨hveof, hnodelim⟩⟩
    · rw [hcontents, ← hall, List.flatMap_append, List.append_assoc]
      simp only [List.flatMap_singleton, LineRead.bytes, if_true]
      rw [List.append_assoc, List.singleton_append, hrest', hsplit]
    · simp only [List.flatMap_append, List.flatMap_singleton, LineRead.bytes, if_true]
      rw [← List.append_assoc, List.getLast?_concat]
      rintro c ⟨⟩
      exact Termios.isDelim_of_isEof hveof
  · rw [if_neg hafter] at hcontents
    refine ⟨h.counted.finishRead readLength_le fun hafter' => absurd hafter' hafter, hctrl.trans h.ctrl_eq,
      reads ++ [⟨s.dev.contents.take (s.dev.readLength size), false⟩], ?_, ?_, ?_, ?_⟩
    · rw [List.map_append, hreturned]
      rfl
    · intro r hr
      rcases List.mem_append.mp hr with hr | hr
      · exact hreads r hr
      · rw [List.mem_singleton.mp hr]
        exact ⟨hdata, hnoeof, fun heof => absurd heof Bool.false_ne_true⟩
    · rw [hcontents, ← hall, List.flatMap_append, List.append_assoc]
      simp only [List.flatMap_singleton, LineRead.bytes, Bool.false_eq_true, if_false, List.append_nil]
      rw [hsplit]
    · dsimp only
      rw [hcontents]
      refine hbehind.imp_right ?_
      rintro ⟨d, hd, hdelim⟩ c hc
      have hne : s.dev.contents.take (s.dev.readLength size) ≠ [] := List.ne_nil_of_mem (List.mem_of_getLast? hd)
      simp only [List.flatMap_append, List.flatMap_singleton, LineRead.bytes, Bool.false_eq_true, if_false,
        List.append_nil] at hc
      rw [List.getLast?_append_of_ne_nil _ hne] at hc
      cases hd.symm.trans hc
      exact hdelim

theorem Faithful.read (h : Faithful ctrl s) (hmode : ctrl.mode icanon) {time task size : ℕ} {signals block : Bool}
    (hok : s.LineStep (.read time task size signals block))
    (hs : s.step (.read time task size signals block) = some s') : Faithful ctrl s' := by
  have hmode' : s.dev.ctrl.mode icanon := h.ctrl_eq ▸ hmode
  simp only [TtySession.step, uartTtyReadOrWait, startRead_canonical hmode'] at hs
  by_cases hready : s.dev.canReturnRead time
  · rw [if_pos hready] at hs
    cases hs
    rw [readWrapped_eq h.counted.ring readLength_le]
    exact h.success hmode hready fun hafter => h.ctrl_eq ▸ hok hready hafter
  · rw [if_neg hready] at hs
    split_ifs at hs
    · cases hs
      exact h
    · cases hs
      exact ⟨h.counted.congr rfl rfl rfl rfl rfl rfl, h.ctrl_eq, h.reads⟩
    · cases hs
      exact h

theorem Faithful.step (h : Faithful ctrl s) (hmode : ctrl.mode icanon) {a : SessionStep} (hok : s.LineStep a)
    (hs : s.step a = some s') : Faithful ctrl s' := by
  cases a with
  | receive byte => exact h.receive hok hs
  | read time task size signals block => exact h.read hmode hok hs

theorem faithful_create {memory : ByteStore.Store} : Faithful ctrl (create memory ctrl) :=
  ⟨⟨⟨Or.inr ⟨rfl, rfl⟩, le_rfl, Nat.zero_le _⟩, rfl⟩, rfl, [], rfl, by simp, rfl, Or.inr (by simp)⟩

theorem filter_reads {reads : List LineRead} (h : ∀ r ∈ reads, r.Ok ctrl) :
    (reads.flatMap (LineRead.bytes ctrl)).filter (¬ctrl.isEof ·) = (reads.map LineRead.data).flatten := by
  induction reads with
  | nil => rfl
  | cons r reads ih =>
    obtain ⟨hr, hreads⟩ := List.forall_mem_cons.mp h
    have hdata : r.data.filter (¬ctrl.isEof ·) = r.data := by
      rw [List.filter_eq_self]
      simpa using hr.data
    have heof : (if r.eof then [ctrl.cc .veof] else []).filter (¬ctrl.isEof ·) = [] := by
      split_ifs with heof
      · simp [(hr.eof heof).1]
      · rfl
    rw [List.flatMap_cons, List.filter_append, ih hreads, LineRead.bytes, List.filter_append, hdata, heof,
      List.append_nil, List.map_cons, List.flatten_cons]

/-- Reads return the lines of the edited input, in every run that edits no finished line and in
which no `VEOF` but the one that ended a read is at the front after it. -/
theorem runs_faithful {memory : ByteStore.Store} {steps : List SessionStep} (hmode : ctrl.mode icanon)
    (h : Runs TtySession.step LineStep (create memory ctrl) steps s) :
    s.returned.flatten <+: (ctrl.edited s.received).filter (¬ctrl.isEof ·) ∧
      ∃ reads : List LineRead, reads.map LineRead.data = s.returned ∧ (∀ r ∈ reads, r.Ok ctrl) ∧
        reads.flatMap (LineRead.bytes ctrl) ++ s.dev.contents = ctrl.edited s.received := by
  have hfaithful : Faithful ctrl s :=
    h.invariant (fun _ _ _ hI hok hstep => hI.step hmode hok hstep) faithful_create
  obtain ⟨reads, hreturned, hreads, hall, -⟩ := hfaithful.reads
  refine ⟨⟨s.dev.contents.filter (¬ctrl.isEof ·), ?_⟩, reads, hreturned, hreads, hall⟩
  rw [← hall, List.filter_append, ← hreturned]
  congr 1
  exact (filter_reads hreads).symm

/-- A line in two reads, with an erased character, and a line that ends with the end of the file. -/
theorem runs_faithful_lines : ∃ s, execOk TtySession.step LineStep (create (fun _ => 0) initialCtrl)
    [.receive (some 97), .receive (some 98), .receive (some 0x7f), .receive (some 10), .read 0 1 1 false true,
      .read 0 1 5 false true, .receive (some 99), .receive (some 4), .read 0 1 5 false true] = some s ∧
    s.returned.flatten <+: (initialCtrl.edited s.received).filter (¬initialCtrl.isEof ·) := by
  obtain ⟨s, hs⟩ : ∃ s, execOk TtySession.step LineStep (create (fun _ => 0) initialCtrl)
      [.receive (some 97), .receive (some 98), .receive (some 0x7f), .receive (some 10), .read 0 1 1 false true,
        .read 0 1 5 false true, .receive (some 99), .receive (some 4), .read 0 1 5 false true] = some s :=
    Option.isSome_iff_exists.mp (by decide +kernel)
  exact ⟨s, hs, (runs_faithful (by decide) (Runs.of_execOk hs)).1⟩

/-- The erase character takes the newline of a line that is finished, and the line is lost. -/
theorem erased_newline_lost : ∃ s, exec TtySession.step (create (fun _ => 0) initialCtrl)
    [.receive (some 10), .receive (some 0x7f), .receive (some 99), .receive (some 10), .read 0 1 10 false true] =
      some s ∧ ¬s.returned.flatten <+: (initialCtrl.edited s.received).filter (¬initialCtrl.isEof ·) := by
  refine ⟨(exec TtySession.step (create (fun _ => 0) initialCtrl) [.receive (some 10), .receive (some 0x7f),
    .receive (some 99), .receive (some 10), .read 0 1 10 false true]).getD (create (fun _ => 0) initialCtrl), rfl, ?_⟩
  decide

end Runs

end SomeOs.Tty
