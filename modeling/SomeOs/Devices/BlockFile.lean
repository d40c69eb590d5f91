import SomeOs.Base.Transition

/-! # Calls on a block device file

Every call of `genericBlockFileFunction` is a sequence of operations on single blocks of the
device. Nothing is locked between them: the node layer gives up the lock of the node before it
calls the function. A part of a block is changed by reading the block, changing the copy and
writing all of the copy back.
-/
namespace SomeOs.BlockFile
open Transition
variable {B ι : Type*}

/-- The arguments of a call. The buffer holds what is written, or takes what is read. -/
structure Request (B : Type*) where
  write : Bool
  buffer : ℕ → B
  offset : ℕ
  size : ℕ

def Request.Has (r : Request B) (x : ℕ) : Prop := r.offset ≤ x ∧ x < r.offset + r.size

/-- A call is at the head of its loop, transfers the given number of whole blocks, or has read a
block to its temporary buffer. -/
inductive Phase (B : Type*) where
  | loop
  | direct (blocks : ℕ)
  | loaded (tmpBuffer : ℕ → B)
  | returned
  | failed

structure Call (B : Type*) where
  buffer : ℕ → B
  done : ℕ := 0
  phase : Phase B := .loop

structure State (ι B : Type*) where
  device : ℕ → B
  calls : ι → Call B

/-- `n` bytes from `start` on are replaced. -/
def copyTo (dest : ℕ → B) (start n : ℕ) (src : ℕ → B) : ℕ → B := fun x =>
  if start ≤ x ∧ x < start + n then src (x - start) else dest x

/-- `x & -block_size`, for a block size that is a power of two. -/
def alignDown (blockSize x : ℕ) : ℕ := x / blockSize * blockSize

/-- The variable `offset` of the call. -/
def Call.offset (c : Call B) (r : Request B) : ℕ := r.offset + c.done

/-- The variable `left` of the call. -/
def Call.left (c : Call B) (r : Request B) : ℕ := r.size - c.done

def Call.sizeDiff (c : Call B) (blockSize : ℕ) (r : Request B) : ℕ :=
  min (c.left r) (blockSize - c.offset r % blockSize)

def State.setCall [DecidableEq ι] (s : State ι B) (i : ι) (c : Call B) : State ι B :=
  { s with calls := Function.update s.calls i c }

/-- One block of a direct transfer. -/
def transfer [DecidableEq ι] (blockSize : ℕ) (r : Request B) (s : State ι B) (i : ι) (blocks : ℕ) : State ι B :=
  let c := s.calls i
  if r.write then
    { device := copyTo s.device (c.offset r) blockSize fun k => c.buffer (c.done + k)
      calls := Function.update s.calls i { c with done := c.done + blockSize, phase := .direct blocks } }
  else
    s.setCall i
      { buffer := copyTo c.buffer c.done blockSize fun k => s.device (c.offset r + k)
        done := c.done + blockSize
        phase := .direct blocks }

/-- The part of the temporary buffer is changed and the block written, or the part is copied out. -/
def writeBack [DecidableEq ι] (blockSize : ℕ) (r : Request B) (s : State ι B) (i : ι) (tmpBuffer : ℕ → B) : State ι B :=
  let c := s.calls i
  let inBlock := c.offset r % blockSize
  let sizeDiff := c.sizeDiff blockSize r
  if r.write then
    { device := copyTo s.device (alignDown blockSize (c.offset r)) blockSize
        (copyTo tmpBuffer inBlock sizeDiff fun k => c.buffer (c.done + k))
      calls := Function.update s.calls i { c with done := c.done + sizeDiff, phase := .loop } }
  else
    s.setCall i
      { buffer := copyTo c.buffer c.done sizeDiff fun k => tmpBuffer (inBlock + k)
        done := c.done + sizeDiff
        phase := .loop }

/-- The next step of a call. -/
def advance [DecidableEq ι] (blockSize : ℕ) (r : Request B) (s : State ι B) (i : ι) : Option (State ι B) :=
  let c := s.calls i
  match c.phase with
  | .loop =>
    if c.left r = 0 then some (s.setCall i { c with phase := .returned })
    else if c.offset r % blockSize = 0 ∧ blockSize < c.left r then
      some (s.setCall i { c with phase := .direct (c.left r / blockSize) })
    else some (s.setCall i { c with phase := .loaded fun k => s.device (alignDown blockSize (c.offset r) + k) })
  | .direct 0 => some (s.setCall i { c with phase := .loop })
  | .direct (blocks + 1) => some (transfer blockSize r s i blocks)
  | .loaded tmpBuffer => some (writeBack blockSize r s i tmpBuffer)
  | .returned => none
  | .failed => none

/-- The next step of the call is an operation on the device. -/
def Call.operates (c : Call B) (blockSize : ℕ) (r : Request B) : Bool :=
  match c.phase with
  | .loop => c.left r ≠ 0 ∧ ¬(c.offset r % blockSize = 0 ∧ blockSize < c.left r)
  | .direct blocks => blocks ≠ 0
  | .loaded _ => r.write
  | .returned => false
  | .failed => false

/-- A call goes on, or returns early because the device fails. -/
inductive Action (ι : Type*) where
  | advance (i : ι)
  | fail (i : ι)

def fileStep [DecidableEq ι] (blockSize : ℕ) (reqs : ι → Request B) (s : State ι B) : Action ι → Option (State ι B)
  | .advance i => advance blockSize (reqs i) s i
  | .fail i =>
    if (s.calls i).operates blockSize (reqs i) then some (s.setCall i { s.calls i with phase := .failed }) else none

def started (device : ℕ → B) (reqs : ι → Request B) : State ι B where
  device := device
  calls i := { buffer := (reqs i).buffer }

/-- What the calls that have returned leave when the device held `orig` before. -/
structure Outcome (orig : ℕ → B) (reqs : ι → Request B) (s : State ι B) : Prop where
  written : ∀ i, (reqs i).write = true → (s.calls i).phase = .returned →
    ∀ k < (reqs i).size, s.device ((reqs i).offset + k) = (reqs i).buffer k
  elsewhere : ∀ x, (∀ i, (reqs i).write = true → ¬(reqs i).Has x) → s.device x = orig x
  readOut : ∀ i, (reqs i).write = false → (s.calls i).phase = .returned →
    ∀ k < (reqs i).size, (s.calls i).buffer k = orig ((reqs i).offset + k)

def Phase.isLoaded : Phase B → Bool
  | .loaded _ => true
  | _ => false

def Phase.transfers : Phase B → Bool
  | .direct (_ + 1) => true
  | .loaded _ => true
  | _ => false

/-- A block is not written while another call that is going to write it back holds a copy of it. -/
def Unshared (blockSize : ℕ) (reqs : ι → Request B) (s : State ι B) : Action ι → Prop
  | .advance i => (reqs i).write = true → (s.calls i).phase.transfers = true →
      ∀ j, j ≠ i → (reqs j).write = true → (s.calls j).phase.isLoaded = true →
        (s.calls i).offset (reqs i) / blockSize ≠ (s.calls j).offset (reqs j) / blockSize
  | .fail _ => True

/-- What holds of a call when the device held `orig` before all calls. -/
structure CallOk (blockSize : ℕ) (orig device : ℕ → B) (r : Request B) (c : Call B) : Prop where
  buffer : r.write = true → c.buffer = r.buffer
  done_le : c.done ≤ r.size
  written : r.write = true → ∀ k < c.done, device (r.offset + k) = r.buffer k
  readOut : r.write = false → ∀ k < c.done, c.buffer k = orig (r.offset + k)
  direct : ∀ blocks, c.phase = .direct blocks → c.offset r % blockSize = 0 ∧ blocks * blockSize ≤ c.left r
  held : r.write = true → ∀ tmp, c.phase = .loaded tmp →
    ∀ k < blockSize, tmp k = device (alignDown blockSize (c.offset r) + k)
  heldRead : r.write = false → ∀ tmp, c.phase = .loaded tmp →
    ∀ k < c.sizeDiff blockSize r, tmp (c.offset r % blockSize + k) = orig (c.offset r + k)
  returned : c.phase = .returned → c.done = r.size

/-- Every call has written what it has done, and the device is as before everywhere else. -/
structure FileOk (blockSize : ℕ) (orig : ℕ → B) (reqs : ι → Request B) (s : State ι B) : Prop where
  calls : ∀ i, CallOk blockSize orig s.device (reqs i) (s.calls i)
  elsewhere : ∀ x, (∀ i, (reqs i).write = true →
    ¬((reqs i).offset ≤ x ∧ x < (reqs i).offset + (s.calls i).done)) → s.device x = orig x

section Blocks
variable {blockSize x y k n n' start : ℕ} {dest src src' tmp : ℕ → B}

theorem alignDown_add_mod (blockSize x : ℕ) : alignDown blockSize x + x % blockSize = x := Nat.div_add_mod' x blockSize

theorem copyTo_inside (hx : y ≤ x) (hn : x < y + n) : copyTo dest y n src x = src (x - y) := if_pos ⟨hx, hn⟩

theorem copyTo_outside (h : ¬(y ≤ x ∧ x < y + n)) : copyTo dest y n src x = dest x := if_neg h

theorem copyTo_congr (h : ∀ k < n, src k = src' k) : copyTo dest start n src = copyTo dest start n src' := by
  funext x
  by_cases hx : start ≤ x ∧ x < start + n
  · rw [copyTo_inside hx.1 hx.2, copyTo_inside hx.1 hx.2, h _ (by omega)]
  · rw [copyTo_outside hx, copyTo_outside hx]

theorem copyTo_append : copyTo (copyTo dest start n src) (start + n) n' (fun k => src (n + k)) =
    copyTo dest start (n + n') src := by
  funext x
  by_cases h₁ : start ≤ x ∧ x < start + n
  · rw [copyTo_outside (by omega), copyTo_inside h₁.1 h₁.2, copyTo_inside h₁.1 (by omega)]
  · by_cases h₂ : start + n ≤ x ∧ x < start + n + n'
    · rw [copyTo_inside h₂.1 h₂.2, copyTo_inside (by omega) (by omega)]
      congr 1
      omega
    · rw [copyTo_outside h₂, copyTo_outside h₁, copyTo_outside (by omega)]

theorem copyTo_before : copyTo (copyTo dest (start + n) n' fun k => src (n + k)) start n src =
    copyTo dest start (n + n') src := by
  funext x
  by_cases h₁ : start ≤ x ∧ x < start + n
  · rw [copyTo_inside h₁.1 h₁.2, copyTo_inside h₁.1 (by omega)]
  · rw [copyTo_outside h₁]
    by_cases h₂ : start + n ≤ x ∧ x < start + n + n'
    · rw [copyTo_inside h₂.1 h₂.2, copyTo_inside (by omega) (by omega)]
      congr 1
      omega
    · rw [copyTo_outside h₂, copyTo_outside (by omega)]

@[simp] theorem copyTo_zero : copyTo dest start 0 src = dest := by
  funext x
  exact copyTo_outside (by omega)

theorem div_alignDown_add (hk : k < blockSize) : (alignDown blockSize x + k) / blockSize = x / blockSize := by
  unfold alignDown
  rw [Nat.add_comm, Nat.add_mul_div_right _ _ (by omega), Nat.div_eq_of_lt hk, Nat.zero_add]

theorem div_of_part (hy : x ≤ y) (hn : n ≤ blockSize - x % blockSize) (hyn : y < x + n) :
    y / blockSize = x / blockSize := by
  have hx := alignDown_add_mod blockSize x
  have hy' : y = alignDown blockSize x + (y - alignDown blockSize x) := by omega
  rw [hy']
  exact div_alignDown_add (by omega)

theorem writeBack_copy (hn : n ≤ blockSize - x % blockSize)
    (htmp : ∀ k < blockSize, tmp k = dest (alignDown blockSize x + k)) :
    copyTo dest (alignDown blockSize x) blockSize (copyTo tmp (x % blockSize) n src) = copyTo dest x n src := by
  funext y
  have hx := alignDown_add_mod blockSize x
  by_cases hblock : alignDown blockSize x ≤ y ∧ y < alignDown blockSize x + blockSize
  · rw [copyTo_inside hblock.1 hblock.2]
    by_cases hpart : x ≤ y ∧ y < x + n
    · rw [copyTo_inside hpart.1 hpart.2, copyTo_inside (by omega) (by omega)]
      congr 1
      omega
    · rw [copyTo_outside hpart, copyTo_outside (by omega), htmp _ (by omega)]
      congr 1
      omega
  · have hpart : ¬(x ≤ y ∧ y < x + n) := by
      intro hp
      apply hblock
      constructor <;> omega
    rw [copyTo_outside hblock, copyTo_outside hpart]

end Blocks

section Calls
variable {blockSize : ℕ} {orig device device' : ℕ → B} {r : Request B} {c : Call B}

theorem CallOk.frame (h : CallOk blockSize orig device r c)
    (hdone : r.write = true → ∀ k < c.done, device' (r.offset + k) = device (r.offset + k))
    (hheld : r.write = true → c.phase.isLoaded = true → ∀ k < blockSize,
      device' (alignDown blockSize (c.offset r) + k) = device (alignDown blockSize (c.offset r) + k)) :
    CallOk blockSize orig device' r c where
  buffer := h.buffer
  done_le := h.done_le
  written hw k hk := by
    rw [hdone hw k hk]
    exact h.written hw k hk
  readOut := h.readOut
  direct := h.direct
  held hw tmp hphase k hk := by
    rw [hheld hw (by rw [hphase]; rfl) k hk]
    exact h.held hw tmp hphase k hk
  heldRead := h.heldRead
  returned := h.returned

theorem Phase.ne_loaded {phase : Phase B} (h : phase.isLoaded = false) (tmp : ℕ → B) : phase ≠ .loaded tmp := by
  rintro rfl
  cases h

theorem CallOk.toPhase (h : CallOk blockSize orig device r c) {phase : Phase B} (hload : phase.isLoaded = false)
    (hdirect : ∀ blocks, phase = .direct blocks → c.offset r % blockSize = 0 ∧ blocks * blockSize ≤ c.left r)
    (hreturned : phase = .returned → c.done = r.size) :
    CallOk blockSize orig device r { c with phase := phase } where
  buffer := h.buffer
  done_le := h.done_le
  written := h.written
  readOut := h.readOut
  direct := hdirect
  held _ tmp hphase := absurd hphase (Phase.ne_loaded hload tmp)
  heldRead _ tmp hphase := absurd hphase (Phase.ne_loaded hload tmp)
  returned := hreturned

/-- A call has written `n` more bytes. -/
theorem CallOk.wrote (h : CallOk blockSize orig device r c) (hw : r.write = true) {n : ℕ} {phase : Phase B}
    (hn : n ≤ c.left r) (hload : phase.isLoaded = false) (hreturned : phase ≠ .returned)
    (hdirect : ∀ blocks, phase = .direct blocks →
      (c.offset r + n) % blockSize = 0 ∧ blocks * blockSize ≤ c.left r - n) :
    CallOk blockSize orig (copyTo device (c.offset r) n fun k => c.buffer (c.done + k)) r
      { c with done := c.done + n, phase := phase } where
  buffer := h.buffer
  done_le := by
    have := h.done_le
    unfold Call.left at hn
    dsimp only
    omega
  written _ k hk := by
    by_cases hold : k < c.done
    · rw [copyTo_outside (by unfold Call.offset; omega)]
      exact h.written hw k hold
    · dsimp only at hk
      rw [copyTo_inside (by unfold Call.offset; omega) (by unfold Call.offset; omega), h.buffer hw]
      congr 1
      unfold Call.offset
      omega
  readOut hr := by
    rw [hw] at hr
    cases hr
  direct blocks hb := by
    have := hdirect blocks hb
    simp only [Call.offset, Call.left] at *
    rw [← Nat.add_assoc]
    omega
  held _ tmp hphase := absurd hphase (Phase.ne_loaded hload tmp)
  heldRead _ tmp hphase := absurd hphase (Phase.ne_loaded hload tmp)
  returned hphase := absurd hphase hreturned

/-- A call has read `n` more bytes. -/
theorem CallOk.read (h : CallOk blockSize orig device r c) (hw : r.write = false) {n : ℕ} {phase : Phase B}
    {src : ℕ → B} (hn : n ≤ c.left r) (hload : phase.isLoaded = false) (hreturned : phase ≠ .returned)
    (hsrc : ∀ k < n, src k = orig (c.offset r + k))
    (hdirect : ∀ blocks, phase = .direct blocks →
      (c.offset r + n) % blockSize = 0 ∧ blocks * blockSize ≤ c.left r - n) :
    CallOk blockSize orig device r ⟨copyTo c.buffer c.done n src, c.done + n, phase⟩ where
  buffer hr := by
    rw [hw] at hr
    cases hr
  done_le := by
    have := h.done_le
    unfold Call.left at hn
    dsimp only
    omega
  written hr := by
    rw [hw] at hr
    cases hr
  readOut _ k hk := by
    by_cases hold : k < c.done
    · dsimp only
      rw [copyTo_outside (by omega)]
      exact h.readOut hw k hold
    · dsimp only at hk ⊢
      rw [copyTo_inside (by omega) (by omega), hsrc _ (by omega)]
      congr 1
      unfold Call.offset
      omega
  direct blocks hb := by
    have := hdirect blocks hb
    simp only [Call.offset, Call.left] at *
    rw [← Nat.add_assoc]
    omega
  held hr := by
    rw [hw] at hr
    cases hr
  heldRead _ tmp hphase := absurd hphase (Phase.ne_loaded hload tmp)
  returned hphase := absurd hphase hreturned

end Calls

section Steps
variable [DecidableEq ι] {blockSize : ℕ} {orig : ℕ → B} {reqs : ι → Request B} {s t : State ι B} {i : ι} {c : Call B}

theorem FileOk.setCall (h : FileOk blockSize orig reqs s) (hc : CallOk blockSize orig s.device (reqs i) c)
    (hdone : (reqs i).write = true → c.done = (s.calls i).done) : FileOk blockSize orig reqs (s.setCall i c) where
  calls j := by
    by_cases hj : j = i
    · subst hj
      simpa [State.setCall] using hc
    · simpa [State.setCall, hj] using h.calls j
  elsewhere x hx := by
    apply h.elsewhere x
    intro j hw
    by_cases hj : j = i
    · subst hj
      simpa [State.setCall, hdone hw] using hx j hw
    · simpa [State.setCall, hj] using hx j hw

/-- A call writes the next `n` bytes of its range, in a block no other call is going to write back. -/
theorem FileOk.write (h : FileOk blockSize orig reqs s) {n : ℕ}
    (hdisj : ∀ i j, i ≠ j → ∀ x, ¬((reqs i).Has x ∧ (reqs j).Has x)) (hw : (reqs i).write = true)
    (hc : CallOk blockSize orig (copyTo s.device ((s.calls i).offset (reqs i)) n fun k =>
      (s.calls i).buffer ((s.calls i).done + k)) (reqs i) c)
    (hdone : c.done = (s.calls i).done + n) (hn : n ≤ blockSize - (s.calls i).offset (reqs i) % blockSize)
    (hothers : ∀ j, j ≠ i → (reqs j).write = true → (s.calls j).phase.isLoaded = true →
      (s.calls i).offset (reqs i) / blockSize ≠ (s.calls j).offset (reqs j) / blockSize) :
    FileOk blockSize orig reqs
      ⟨copyTo s.device ((s.calls i).offset (reqs i)) n fun k => (s.calls i).buffer ((s.calls i).done + k),
        Function.update s.calls i c⟩ where
  calls j := by
    by_cases hj : j = i
    · subst hj
      simpa using hc
    · simp only [Function.update_of_ne hj]
      apply (h.calls j).frame
      · intro hwj k hk
        apply copyTo_outside
        intro hin
        apply hdisj i j (Ne.symm hj) ((reqs j).offset + k)
        have hi := hc.done_le
        have hk' := (h.calls j).done_le
        simp only [Call.offset, Request.Has] at *
        omega
      · intro hwj hload k hk
        apply copyTo_outside
        rintro ⟨hge, hlt⟩
        apply hothers j hj hwj hload
        rw [← div_of_part hge hn hlt, div_alignDown_add hk]
  elsewhere x hx := by
    have hnew := hx i hw
    simp only [Function.update_self, hdone] at hnew
    have hout : ¬((s.calls i).offset (reqs i) ≤ x ∧ x < (s.calls i).offset (reqs i) + n) := by
      unfold Call.offset
      omega
    dsimp only
    rw [copyTo_outside hout]
    apply h.elsewhere x
    intro j hwj
    by_cases hj : j = i
    · subst hj
      omega
    · simpa [hj] using hx j hwj

omit [DecidableEq ι] in
theorem FileOk.unread (h : FileOk blockSize orig reqs s)
    (hdisj : ∀ i j, i ≠ j → ∀ x, ¬((reqs i).Has x ∧ (reqs j).Has x)) (hw : (reqs i).write = false) {x : ℕ}
    (hx : (reqs i).Has x) : s.device x = orig x := by
  apply h.elsewhere x
  intro j hwj hin
  have hj : j ≠ i := by
    rintro rfl
    rw [hw] at hwj
    cases hwj
  apply hdisj i j hj.symm x
  have hle := (h.calls j).done_le
  unfold Request.Has at *
  omega

theorem FileOk.transfer (h : FileOk blockSize orig reqs s) {blocks : ℕ}
    (hdisj : ∀ i j, i ≠ j → ∀ x, ¬((reqs i).Has x ∧ (reqs j).Has x))
    (hphase : (s.calls i).phase = .direct (blocks + 1)) (hok : Unshared blockSize reqs s (.advance i)) :
    FileOk blockSize orig reqs (transfer blockSize (reqs i) s i blocks) := by
  have hi := h.calls i
  obtain ⟨hmod, hleft⟩ := hi.direct _ hphase
  rw [Nat.succ_mul] at hleft
  have hdirect : ∀ n, Phase.direct blocks = (.direct n : Phase B) →
      ((s.calls i).offset (reqs i) + blockSize) % blockSize = 0 ∧ n * blockSize ≤ (s.calls i).left (reqs i) - blockSize := by
    intro n hn
    cases hn
    rw [Nat.add_mod_right]
    omega
  unfold BlockFile.transfer
  dsimp only
  split_ifs with hw
  · apply h.write hdisj hw (hi.wrote hw (by omega) rfl (by simp) hdirect) rfl (by omega)
    exact hok hw (by rw [hphase]; rfl)
  · have hread : (reqs i).write = false := by simpa using hw
    apply h.setCall (hi.read hread (by omega) rfl (by simp) ?_ hdirect) (fun hw' => absurd hw' hw)
    intro k hk
    apply h.unread hdisj hread
    simp only [Request.Has, Call.offset, Call.left] at *
    omega

theorem FileOk.writeBack (h : FileOk blockSize orig reqs s) {tmp : ℕ → B}
    (hdisj : ∀ i j, i ≠ j → ∀ x, ¬((reqs i).Has x ∧ (reqs j).Has x))
    (hphase : (s.calls i).phase = .loaded tmp) (hok : Unshared blockSize reqs s (.advance i)) :
    FileOk blockSize orig reqs (writeBack blockSize (reqs i) s i tmp) := by
  have hi := h.calls i
  have hleft : (s.calls i).sizeDiff blockSize (reqs i) ≤ (s.calls i).left (reqs i) := min_le_left _ _
  have hpart : (s.calls i).sizeDiff blockSize (reqs i) ≤ blockSize - (s.calls i).offset (reqs i) % blockSize :=
    min_le_right _ _
  unfold BlockFile.writeBack
  dsimp only
  split_ifs with hw
  · rw [writeBack_copy hpart (hi.held hw tmp hphase)]
    apply h.write hdisj hw (hi.wrote hw hleft rfl (by simp) (by simp)) rfl hpart
    exact hok hw (by rw [hphase]; rfl)
  · have hread : (reqs i).write = false := by simpa using hw
    exact h.setCall (hi.read hread hleft rfl (by simp) (hi.heldRead hread tmp hphase) (by simp))
      (fun hw' => absurd hw' hw)

omit [DecidableEq ι] in
/-- A call reads the block of the next byte to its temporary buffer. -/
theorem FileOk.load (h : FileOk blockSize orig reqs s)
    (hdisj : ∀ i j, i ≠ j → ∀ x, ¬((reqs i).Has x ∧ (reqs j).Has x)) :
    CallOk blockSize orig s.device (reqs i) { s.calls i with
      phase := .loaded fun k => s.device (alignDown blockSize ((s.calls i).offset (reqs i)) + k) } where
  buffer := (h.calls i).buffer
  done_le := (h.calls i).done_le
  written := (h.calls i).written
  readOut := (h.calls i).readOut
  direct _ hphase := by cases hphase
  held _ tmp hphase k _ := by
    cases hphase
    rfl
  heldRead hread tmp hphase k hk := by
    cases hphase
    dsimp only
    change s.device (alignDown blockSize ((s.calls i).offset (reqs i)) +
      ((s.calls i).offset (reqs i) % blockSize + k)) = orig ((s.calls i).offset (reqs i) + k)
    rw [← Nat.add_assoc, alignDown_add_mod]
    apply h.unread hdisj hread
    have hk' := lt_of_lt_of_le hk (min_le_left _ _)
    simp only [Request.Has, Call.offset, Call.left] at *
    omega
  returned hphase := by cases hphase

theorem FileOk.step (h : FileOk blockSize orig reqs s) {a : Action ι}
    (hdisj : ∀ i j, i ≠ j → ∀ x, ¬((reqs i).Has x ∧ (reqs j).Has x))
    (hok : Unshared blockSize reqs s a) (hs : fileStep blockSize reqs s a = some t) :
    FileOk blockSize orig reqs t := by
  cases a with
  | fail i =>
    simp only [fileStep] at hs
    split_ifs at hs
    cases hs
    exact h.setCall ((h.calls i).toPhase rfl (by simp) (by simp)) (fun _ => rfl)
  | advance i =>
    have hi := h.calls i
    simp only [fileStep, advance] at hs
    split at hs
    · split_ifs at hs with hleft hdirect
      · cases hs
        refine h.setCall (hi.toPhase rfl (by simp) fun _ => ?_) (fun _ => rfl)
        have := hi.done_le
        unfold Call.left at hleft
        omega
      · cases hs
        refine h.setCall (hi.toPhase rfl ?_ (by simp)) (fun _ => rfl)
        intro blocks hb
        cases hb
        exact ⟨hdirect.1, Nat.div_mul_le_self _ _⟩
      · cases hs
        exact h.setCall (h.load hdisj) (fun _ => rfl)
    · cases hs
      exact h.setCall (hi.toPhase rfl (by simp) (by simp)) (fun _ => rfl)
    · rename_i blocks hphase
      cases hs
      exact h.transfer hdisj hphase hok
    · rename_i tmp hphase
      cases hs
      exact h.writeBack hdisj hphase hok
    · cases hs
    · cases hs

omit [DecidableEq ι] in
theorem started_ok (blockSize : ℕ) (orig : ℕ → B) (reqs : ι → Request B) :
    FileOk blockSize orig reqs (started orig reqs) where
  calls i :=
    { buffer := fun _ => rfl
      done_le := Nat.zero_le _
      written := fun _ k hk => absurd hk (Nat.not_lt_zero k)
      readOut := fun _ k hk => absurd hk (Nat.not_lt_zero k)
      direct := fun _ h => (by cases h)
      held := fun _ _ h => (by cases h)
      heldRead := fun _ _ h => (by cases h)
      returned := fun h => (by cases h) }
  elsewhere _ _ := rfl

omit [DecidableEq ι] in
theorem FileOk.outcome (h : FileOk blockSize orig reqs s) : Outcome orig reqs s where
  written i hw hret k hk := (h.calls i).written hw k (by rwa [(h.calls i).returned hret])
  elsewhere x hx := by
    apply h.elsewhere x
    intro i hw hin
    apply hx i hw
    have := (h.calls i).done_le
    unfold Request.Has
    omega
  readOut i hw hret k hk := (h.calls i).readOut hw k (by rwa [(h.calls i).returned hret])

/-- Calls on disjoint ranges do not destroy each other when no block is written while another call
that is going to write it back holds a copy of it. -/
theorem disjoint_writes (hdisj : ∀ i j, i ≠ j → ∀ x, ¬((reqs i).Has x ∧ (reqs j).Has x)) {acts : List (Action ι)}
    (hr : Runs (fileStep blockSize reqs) (Unshared blockSize reqs) (started orig reqs) acts s) :
    Outcome orig reqs s :=
  (hr.invariant (I := FileOk blockSize orig reqs) (fun _ _ _ hI hok hs => hI.step hdisj hok hs)
    (started_ok blockSize orig reqs)).outcome

end Steps

def neighbours (i : Fin 2) : Request UInt8 where
  write := true
  buffer := fun _ => 1
  offset := i
  size := 1

theorem neighbours_disjoint (i j : Fin 2) (hij : i ≠ j) (x : ℕ) : ¬((neighbours i).Has x ∧ (neighbours j).Has x) := by
  rintro ⟨hi, hj⟩
  apply hij
  ext
  simp only [Request.Has, neighbours] at hi hj
  omega

/-- One call after the other. -/
theorem disjoint_writes_serial :
    ∃ s, Runs (fileStep 512 neighbours) (Unshared 512 neighbours) (started (fun _ => 0) neighbours)
        [.advance 0, .advance 0, .advance 0, .advance 1, .advance 1, .advance 1] s ∧
      Outcome (fun _ => 0) neighbours s := by
  have hr : Runs (fileStep 512 neighbours) (Unshared 512 neighbours) (started (fun _ => 0) neighbours)
      [.advance 0, .advance 0, .advance 0, .advance 1, .advance 1, .advance 1]
      ((exec (fileStep 512 neighbours) (started (fun _ => 0) neighbours)
        [.advance 0, .advance 0, .advance 0, .advance 1, .advance 1, .advance 1]).getD
        (started (fun _ => 0) neighbours)) := by
    refine .cons ?_ rfl (.cons ?_ rfl (.cons ?_ rfl (.cons ?_ rfl (.cons ?_ rfl (.cons ?_ rfl (.nil _)))))) <;>
      · intro _ _ j hj _ hload
        fin_cases j <;> first | exact absurd rfl hj | cases hload
  exact ⟨_, hr, disjoint_writes neighbours_disjoint hr⟩

/-- Both calls read the block before one of them writes it: the byte of the first is lost. -/
theorem disjoint_write_lost :
    (∀ i j : Fin 2, i ≠ j → ∀ x, ¬((neighbours i).Has x ∧ (neighbours j).Has x)) ∧
      ∃ s, Runs (fileStep 512 neighbours) (fun _ _ => True) (started (fun _ => 0) neighbours)
          [.advance 0, .advance 1, .advance 0, .advance 1, .advance 0, .advance 1] s ∧
        (∀ i, (s.calls i).phase = .returned) ∧ ¬Outcome (fun _ => 0) neighbours s := by
  refine ⟨neighbours_disjoint, _, .cons trivial rfl (.cons trivial rfl (.cons trivial rfl (.cons trivial rfl
    (.cons trivial rfl (.cons trivial rfl (.nil _)))))), ?_, ?_⟩
  · intro i
    fin_cases i <;> rfl
  · intro hout
    have hbyte := hout.written 0 rfl rfl 0 (by decide)
    revert hbyte
    decide

end SomeOs.BlockFile
