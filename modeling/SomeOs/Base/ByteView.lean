import Mathlib

/-! # Bytes at addresses

A view gives the bytes at the addresses that can be read. It holds a list of bytes at an address
when they are read there one after the other, as numbers with their highest byte first and texts
with a zero byte at their end are.
-/
namespace SomeOs.ByteView

abbrev View := ℕ → Option UInt8

def Holds (m : View) (p : ℕ) (bs : List UInt8) : Prop := ∀ i < bs.length, m (p + i) = bs[i]?

def only (p : ℕ) (bs : List UInt8) : View := fun a => if p ≤ a then bs[a - p]? else none

def read16be (m : View) (p : ℕ) : Option ℕ :=
  (m p).bind fun hi => (m (p + 1)).map fun lo => hi.toNat <<< 8 ||| lo.toNat

def read32be (m : View) (p : ℕ) : Option ℕ :=
  (read16be m p).bind fun hi => (read16be m (p + 2)).map fun lo => hi <<< 16 ||| lo

def read64be (m : View) (p : ℕ) : Option ℕ :=
  (read32be m p).bind fun hi => (read32be m (p + 4)).map fun lo => hi <<< 32 ||| lo

def bytes16be (v : ℕ) : List UInt8 := [UInt8.ofNat (v / 2 ^ 8), UInt8.ofNat v]

def bytes32be (v : ℕ) : List UInt8 := bytes16be (v / 2 ^ 16) ++ bytes16be (v % 2 ^ 16)

def bytes64be (v : ℕ) : List UInt8 := bytes32be (v / 2 ^ 32) ++ bytes32be (v % 2 ^ 32)

def strlen (m : View) : ℕ → ℕ → Option ℕ
  | 0, _ => none
  | fuel + 1, p => (m p).bind fun c => if c = 0 then some 0 else (strlen m fuel (p + 1)).map (· + 1)

def Accessible (m : View) (p n : ℕ) : Prop := ∀ i < n, (m (p + i)).isSome

def copyTo : View → ℕ → List UInt8 → View
  | m, _, [] => m
  | m, p, b :: bs => if (m p).isSome then copyTo (Function.update m p (some b)) (p + 1) bs else m

/-- A copy from an address over other bytes, up to the first one that is not accessible. -/
def copyFrom (m : View) : ℕ → List UInt8 → List UInt8
  | _, [] => []
  | p, b :: bs =>
    match m p with
    | some c => c :: copyFrom m (p + 1) bs
    | none => b :: bs

variable {m m' : View} {p v : ℕ} {as bs : List UInt8} {b : UInt8}

theorem holds_only : Holds (only p bs) p bs := by
  intro i _
  simp [only]

theorem holds_append : Holds m p (as ++ bs) ↔ Holds m p as ∧ Holds m (p + as.length) bs := by
  constructor
  · intro h
    refine ⟨fun i hi => ?_, fun i hi => ?_⟩
    · rw [h i (by rw [List.length_append]; omega), List.getElem?_append_left hi]
    · rw [Nat.add_assoc, h _ (by rw [List.length_append]; omega), List.getElem?_append_right (by omega), Nat.add_sub_cancel_left]
  · rintro ⟨ha, hb⟩ i hi
    rw [List.length_append] at hi
    by_cases hlt : i < as.length
    · rw [ha i hlt, List.getElem?_append_left hlt]
    · have := hb (i - as.length) (by omega)
      rwa [show p + as.length + (i - as.length) = p + i by omega, ← List.getElem?_append_right (by omega)] at this

theorem holds_cons : Holds m p (b :: bs) ↔ m p = some b ∧ Holds m (p + 1) bs := by
  rw [← List.singleton_append, holds_append]
  refine and_congr ⟨fun h => h 0 Nat.zero_lt_one, fun h i hi => ?_⟩ Iff.rfl
  obtain rfl := Nat.lt_one_iff.mp hi
  exact h

theorem Holds.of_prefix_drop {n : ℕ} (h : Holds m p bs) (hpre : as <+: bs.drop n) (hn : n ≤ bs.length) :
    Holds m (p + n) as := by
  obtain ⟨rest, hrest⟩ := hpre
  rw [← List.take_append_drop n bs, holds_append, List.length_take, min_eq_left hn, ← hrest, holds_append] at h
  exact h.2.1

theorem Holds.congr (h : Holds m p bs) (hm : ∀ i < bs.length, m' (p + i) = m (p + i)) : Holds m' p bs :=
  fun i hi => (hm i hi).trans (h i hi)

theorem copyTo_outside {x : ℕ} (h : x < p ∨ p + bs.length ≤ x) : copyTo m p bs x = m x := by
  induction bs generalizing m p with
  | nil => rfl
  | cons b bs ih =>
    rw [List.length_cons] at h
    unfold copyTo
    split_ifs
    · rw [ih (by omega), Function.update_of_ne (by omega)]
    · rfl

theorem isSome_copyTo {x : ℕ} : (copyTo m p bs x).isSome = (m x).isSome := by
  induction bs generalizing m p with
  | nil => rfl
  | cons b bs ih =>
    unfold copyTo
    split_ifs with hp
    · rw [ih]
      by_cases hx : x = p
      · rw [hx, Function.update_self, hp]
        rfl
      · rw [Function.update_of_ne hx]
    · rfl

theorem holds_copyTo (h : Accessible m p bs.length) : Holds (copyTo m p bs) p bs := by
  induction bs generalizing m p with
  | nil => exact fun i hi => absurd hi (Nat.not_lt_zero i)
  | cons b bs ih =>
    have hp : (m p).isSome := h 0 (Nat.succ_pos _)
    unfold copyTo
    rw [if_pos hp]
    refine holds_cons.mpr ⟨?_, ih fun i hi => ?_⟩
    · rw [copyTo_outside (.inl (Nat.lt_succ_self p)), Function.update_self]
    · rw [Function.update_of_ne (by omega), show p + 1 + i = p + (i + 1) by omega]
      exact h (i + 1) (Nat.succ_lt_succ hi)

theorem copyFrom_of_holds (h : Holds m p bs) (hlen : as.length = bs.length) : copyFrom m p as = bs := by
  induction bs generalizing p as with
  | nil =>
    rw [List.eq_nil_of_length_eq_zero hlen]
    rfl
  | cons b bs ih =>
    obtain ⟨a, as, rfl⟩ := List.exists_cons_of_length_eq_add_one hlen
    obtain ⟨hp, h⟩ := holds_cons.mp h
    unfold copyFrom
    rw [hp, ih h (Nat.succ.inj hlen)]

@[simp] theorem bytes16be_length : (bytes16be v).length = 2 := rfl

@[simp] theorem bytes32be_length : (bytes32be v).length = 4 := rfl

@[simp] theorem bytes64be_length : (bytes64be v).length = 8 := rfl

theorem shiftLeft_div_or_mod (v k : ℕ) : (v / 2 ^ k) <<< k ||| v % 2 ^ k = v := by
  rw [← Nat.shiftLeft_add_eq_or_of_lt (Nat.mod_lt _ (by positivity)), Nat.shiftLeft_eq, Nat.mul_comm]
  exact Nat.div_add_mod v (2 ^ k)

theorem Holds.read16be (h : Holds m p (bytes16be v)) (hv : v < 2 ^ 16) : read16be m p = some v := by
  obtain ⟨h0, h⟩ := holds_cons.mp h
  obtain ⟨h1, -⟩ := holds_cons.mp h
  have hhi : (UInt8.ofNat (v / 2 ^ 8)).toNat = v / 2 ^ 8 := by
    rw [UInt8.toNat_ofNat']
    omega
  unfold ByteView.read16be
  rw [h0, h1, Option.bind_some, Option.map_some, hhi, UInt8.toNat_ofNat']
  exact congrArg some (shiftLeft_div_or_mod v 8)

theorem Holds.read32be (h : Holds m p (bytes32be v)) (hv : v < 2 ^ 32) : read32be m p = some v := by
  obtain ⟨hhi, hlo⟩ := holds_append.mp h
  rw [bytes16be_length] at hlo
  unfold ByteView.read32be
  rw [hhi.read16be (by omega), hlo.read16be (by omega), Option.bind_some, Option.map_some]
  exact congrArg some (shiftLeft_div_or_mod v 16)

theorem Holds.read64be (h : Holds m p (bytes64be v)) (hv : v < 2 ^ 64) : read64be m p = some v := by
  obtain ⟨hhi, hlo⟩ := holds_append.mp h
  rw [bytes32be_length] at hlo
  unfold ByteView.read64be
  rw [hhi.read32be (by omega), hlo.read32be (by omega), Option.bind_some, Option.map_some]
  exact congrArg some (shiftLeft_div_or_mod v 32)

theorem Holds.strlen {fuel : ℕ} (h : Holds m p (bs ++ [0])) (hbs : 0 ∉ bs) (hfuel : bs.length < fuel) :
    strlen m fuel p = some bs.length := by
  induction bs generalizing p fuel with
  | nil =>
    obtain ⟨fuel, rfl⟩ := Nat.exists_eq_add_of_lt hfuel
    obtain ⟨h0, -⟩ := holds_cons.mp h
    rw [ByteView.strlen, h0, Option.bind_some, if_pos rfl]
    rfl
  | cons b bs ih =>
    obtain ⟨fuel, rfl⟩ := Nat.exists_eq_add_of_lt hfuel
    obtain ⟨h0, h⟩ := holds_cons.mp h
    rw [List.mem_cons, not_or] at hbs
    rw [ByteView.strlen, h0, Option.bind_some, if_neg (Ne.symm hbs.1), ih h hbs.2 (by rw [List.length_cons]; omega)]
    rfl

end SomeOs.ByteView
