import SomeOs.Vfs.Path

/-! # Reduced paths

The memory of `inlineReducePath` is always the text written so far, then characters that were
read, then the rest of the string. The text is that of the segments which are kept, each with its
slash.
-/
namespace SomeOs.Vfs
open Segments

def Kept (w : Name) : Prop := w ≠ [] ∧ slash ∉ w ∧ w ≠ dot

/-- The segments that are kept are reducible ones after segments `..`, of which an absolute path has none. -/
structure Stack (absolute : Bool) (kept : List Name) (count : ℕ) : Prop where
  segment : ∀ w ∈ kept, Kept w
  split : ∃ names n, kept = names ++ List.replicate n dotDot ∧ names.length = count ∧ dotDot ∉ names ∧ (absolute = true → n = 0)

def text : List Name → List UInt8
  | [] => []
  | w :: kept => text kept ++ w ++ [slash]

section Text
variable {absolute : Bool} {kept : List Name} {count : ℕ} {w : Name}

theorem text_eq (hne : kept ≠ []) : text kept = [slash].intercalate kept.reverse ++ [slash] := by
  induction kept with
  | nil => exact absurd rfl hne
  | cons w kept ih =>
    cases kept with
    | nil => simp [text]
    | cons v kept =>
      have happend : ∀ (l : List Name), l ≠ [] → [slash].intercalate (l ++ [w]) = [slash].intercalate l ++ [slash] ++ w := by
        intro l
        induction l with
        | nil => exact fun h => absurd rfl h
        | cons a l ihl =>
          intro _
          cases l with
          | nil => simp
          | cons b l =>
            rw [List.cons_append, List.cons_append, List.intercalate_cons_cons, ← List.cons_append, ihl (by simp),
              List.intercalate_cons_cons]
            simp
      rw [text, ih (by simp), List.reverse_cons (a := w), happend _ (by simp)]

theorem stack_nil (absolute : Bool) : Stack absolute [] 0 where
  segment w hw := by cases hw
  split := ⟨[], 0, rfl, rfl, List.not_mem_nil, fun _ => rfl⟩

theorem Stack.push (h : Stack absolute kept count) (hw : Kept w) (hne : w ≠ dotDot) : Stack absolute (w :: kept) (count + 1) where
  segment v hv := by
    rcases List.mem_cons.mp hv with rfl | hv
    · exact hw
    · exact h.segment v hv
  split := by
    obtain ⟨names, n, rfl, rfl, hno, habs⟩ := h.split
    exact ⟨w :: names, n, rfl, rfl, by simp [hno, Ne.symm hne], habs⟩

theorem kept_dotDot : Kept dotDot := by
  refine ⟨by decide, by decide, by decide⟩

theorem Stack.push_dotDot (h : Stack false kept 0) : Stack false (dotDot :: kept) 0 where
  segment v hv := by
    rcases List.mem_cons.mp hv with rfl | hv
    · exact kept_dotDot
    · exact h.segment v hv
  split := by
    obtain ⟨names, n, rfl, hlen, -, -⟩ := h.split
    obtain rfl := List.length_eq_zero_iff.mp hlen
    exact ⟨[], n + 1, by rw [List.replicate_succ]; rfl, rfl, List.not_mem_nil, fun h => by cases h⟩

theorem Stack.pop (h : Stack absolute kept (count + 1)) :
    ∃ w rest, kept = w :: rest ∧ w ≠ dotDot ∧ Stack absolute rest count := by
  obtain ⟨names, n, rfl, hlen, hno, habs⟩ := h.split
  obtain ⟨w, names, rfl⟩ := List.exists_cons_of_length_eq_add_one hlen
  rw [List.mem_cons, not_or] at hno
  refine ⟨w, names ++ List.replicate n dotDot, rfl, Ne.symm hno.1, ⟨fun v hv => h.segment v (List.mem_cons_of_mem w hv), ?_⟩⟩
  exact ⟨names, n, rfl, by simpa using hlen, hno.2, habs⟩

theorem Stack.none (h : Stack absolute kept 0) : (absolute = true → kept = []) ∧ ∀ w ∈ kept, w = dotDot := by
  obtain ⟨names, n, rfl, hlen, -, habs⟩ := h.split
  obtain rfl := List.length_eq_zero_iff.mp hlen
  refine ⟨fun ha => by rw [habs ha]; rfl, fun w hw => List.eq_of_mem_replicate (by simpa using hw)⟩

end Text

section Resolve
variable {absolute : Bool} {kept : List Name} {count : ℕ} {w : Name} {rest : List Name}

theorem resolve_dot : resolve absolute kept (dot :: rest) = resolve absolute kept rest := by
  rw [resolve.eq_def]
  simp

theorem resolve_name (hdot : w ≠ dot) (hdots : w ≠ dotDot) : resolve absolute kept (w :: rest) =
    resolve absolute (w :: kept) rest := by
  rw [resolve.eq_def]
  simp [hdot, hdots]

theorem resolve_remove (hw : w ≠ dotDot) : resolve absolute (w :: kept) (dotDot :: rest) = resolve absolute kept rest := by
  rw [resolve, if_neg (by decide), if_pos rfl]
  simp only [if_neg hw]

theorem resolve_absolute (h : Stack true kept 0) : resolve true kept (dotDot :: rest) = resolve true kept rest := by
  obtain rfl := h.none.1 rfl
  rw [resolve, if_neg (by decide), if_pos rfl]
  rfl

theorem resolve_relative (h : Stack false kept 0) : resolve false kept (dotDot :: rest) =
    resolve false (dotDot :: kept) rest := by
  rw [resolve.eq_def]
  simp only [if_neg (show dotDot ≠ dot by decide), if_true]
  cases kept with
  | nil => rfl
  | cons v kept =>
    obtain rfl := h.none.2 v List.mem_cons_self
    rfl

end Resolve

/-- The function has written `x` and has `r` left to read. -/
def reduceState (str x junk r : List UInt8) (n : ℕ) (point : ReducePoint) : ReduceState :=
  ⟨x ++ junk ++ (r ++ [0]), x.length + junk.length, x.length, n, isAbsolute str, point⟩

/-- `r` is what is left of the string. -/
def Left (str x junk r : List UInt8) : Prop := ∃ read, str = read ++ r ∧ read.length = x.length + junk.length

/-- The segments that are kept after the rest of the string are those of the path that is meant. -/
def Resolves (str : List UInt8) (kept : List Name) (r : List UInt8) : Prop :=
  resolve (isAbsolute str) kept (segments slash r) = resolve (isAbsolute str) [] (segments slash str)

def lead (str : List UInt8) (kept : List Name) : List UInt8 := root (isAbsolute str) ++ text kept

def Cut (r : List UInt8) : Prop := r = [] ∨ ∃ rest, r = slash :: rest

/-- What holds in each loop. -/
inductive ReduceInv (str : List UInt8) : ReduceState → Prop
  | segment {junk r : List UInt8} {n : ℕ} {kept : List Name} (hleft : Left str (lead str kept) junk r) (hne : r ≠ [])
      (hstack : Stack (isAbsolute str) kept n) (hres : Resolves str kept r) :
      ReduceInv str (reduceState str (lead str kept) junk r n .segment)
  | finished {x junk : List UInt8} {n : ℕ} {kept : List Name} (hleft : Left str x junk [])
      (hkept : ∀ w ∈ kept, Kept w) (hx : x = lead str kept ∨ kept ≠ [] ∧ x ++ [slash] = lead str kept)
      (hres : Resolves str kept []) :
      ReduceInv str (reduceState str x junk [] n .segment)
  | skip {junk r : List UInt8} {n : ℕ} {kept : List Name} (hleft : Left str (lead str kept) junk r)
      (hstack : Stack (isAbsolute str) kept n) (hres : Resolves str kept r) :
      ReduceInv str (reduceState str (lead str kept) junk r n .skip)
  | scan {junk w r : List UInt8} {n next : ℕ} {kept : List Name} (hleft : Left str (lead str kept) junk (w ++ r)) (hw : slash ∉ w)
      (hhead : w = [] → r.head? ≠ some slash) (hnext : next = (lead str kept).length + junk.length + w.length)
      (hstack : Stack (isAbsolute str) kept n) (hres : Resolves str kept (w ++ r)) :
      ReduceInv str (reduceState str (lead str kept) junk (w ++ r) n (.scan next))
  | remove {junk v r : List UInt8} {n : ℕ} {kept : List Name} (hleft : Left str (lead str kept ++ v) junk (dotDot ++ r))
      (hv : slash ∉ v) (hcut : Cut r) (hstack : Stack (isAbsolute str) kept n) (hres : Resolves str kept r) :
      ReduceInv str (reduceState str (lead str kept ++ v) junk (dotDot ++ r) (n + 1) .remove)
  | write {junk v w r : List UInt8} {n next : ℕ} {b : Bool} {kept : List Name}
      (hleft : Left str (lead str kept ++ v) junk (w ++ r)) (hw : slash ∉ w) (hcut : Cut r)
      (hnext : next = (lead str kept ++ v).length + junk.length + w.length)
      (hstack : Stack (isAbsolute str) ((v ++ w) :: kept) (if b then n + 1 else n)) (hres : Resolves str ((v ++ w) :: kept) r) :
      ReduceInv str (reduceState str (lead str kept ++ v) junk (w ++ r) n (.write next b))
  | written {junk r : List UInt8} {n next : ℕ} {b : Bool} {kept : List Name} (hleft : Left str (lead str kept) junk r)
      (hnext : next + 1 = (lead str kept).length + junk.length)
      (hstack : Stack (isAbsolute str) kept (if b then n + 1 else n)) (hres : Resolves str kept r) :
      ReduceInv str (reduceState str (lead str kept) junk r n (.write next b))
  | blank {junk : List UInt8} {n next : ℕ} {b : Bool} {kept : List Name} (hleft : Left str (lead str kept) junk [])
      (hnext : next = (lead str kept).length + junk.length) (hkept : ∀ w ∈ kept, Kept w) (hres : Resolves str kept []) :
      ReduceInv str (reduceState str (lead str kept) junk [] n (.write next b))
  | returned {junk : List UInt8} {n : ℕ} (hleft : Left str (canonicalPath str) junk [])
      (hjunk : junk = [] ∨ junk.head? = some 0) :
      ReduceInv str (reduceState str (canonicalPath str) junk [] n .returned)

def turn (length : ℕ) : ℕ := 3 * length + 6

/-- A bound for the rounds that are left. -/
def reduceWeight (s : ReduceState) : ℕ :=
  let length := s.path.length
  match s.point with
  | .segment => (length - s.read_pos) * turn length + if s.path[s.read_pos]? = some 0 then 0 else 3 * length + 5
  | .skip => (length - s.read_pos) * turn length + (3 * length + 4)
  | .scan next_slash => (length - s.read_pos) * turn length + (length + 2 + (length - next_slash))
  | .remove => (length - s.read_pos) * turn length + (1 + s.insert_pos)
  | .write next_slash _ => (length - next_slash) * turn length + (next_slash + 1 - s.read_pos)
  | .returned => 0

section Steps
variable {str x junk r : List UInt8} {n : ℕ} {point : ReducePoint}

theorem read_char (i : ℕ) : (reduceState str x junk r n point).path[(reduceState str x junk r n point).read_pos + i]? =
    (r ++ [0])[i]? := by
  simp only [reduceState]
  rw [← List.length_append, List.getElem?_append_right (by omega)]
  congr 1
  omega

theorem read_head : (reduceState str x junk r n point).path[(reduceState str x junk r n point).read_pos]? = (r ++ [0])[0]? :=
    read_char 0

theorem Left.length (h : Left str x junk r) : x.length + junk.length + r.length = str.length := by
  obtain ⟨read, rfl, hread⟩ := h
  simp [hread]

theorem Left.not_mem (h : Left str x junk r) (h0 : 0 ∉ str) : 0 ∉ r := by
  obtain ⟨read, rfl, -⟩ := h
  exact fun hr => h0 (List.mem_append_right read hr)

theorem Left.advance {w x' junk' : List UInt8} (h : Left str x junk (w ++ r))
    (hlen : x'.length + junk'.length = x.length + junk.length + w.length) : Left str x' junk' r := by
  obtain ⟨read, rfl, hread⟩ := h
  exact ⟨read ++ w, by simp, by simp [hread, hlen]⟩

theorem store_char (c : UInt8) : ∃ junk', junk'.length = junk.length ∧
    store (x ++ junk ++ (c :: r ++ [0])) x.length c = some (x ++ [c] ++ junk' ++ (r ++ [0])) := by
  cases junk with
  | nil => exact ⟨[], rfl, by simp [store]⟩
  | cons j junk => exact ⟨junk ++ [c], by simp, by simp [store]⟩

def Advances (str : List UInt8) (s : ReduceState) : Prop :=
  ∃ t, reduceStep s = some t ∧ ReduceInv str t ∧ reduceWeight t < reduceWeight s

@[simp] theorem reduceState_point : (reduceState str x junk r n point).point = point := rfl

theorem path_length (h : Left str x junk r) : (reduceState str x junk r n point).path.length = str.length + 1 := by
  have := h.length
  simp [reduceState]
  omega

theorem rest_length (h : Left str x junk r) : str.length + 1 - (reduceState str x junk r n point).read_pos = r.length + 1 := by
  have := h.length
  simp only [reduceState]
  omega

theorem weight_skip (h : Left str x junk r) :
    reduceWeight (reduceState str x junk r n .skip) = (r.length + 1) * turn (str.length + 1) + (3 * (str.length + 1) + 4) := by
  simp only [reduceWeight, reduceState_point, path_length h, rest_length h]

theorem weight_segment (h0 : 0 ∉ str) (h : Left str x junk r) : reduceWeight (reduceState str x junk r n .segment) =
    (r.length + 1) * turn (str.length + 1) + if r = [] then 0 else 3 * (str.length + 1) + 5 := by
  simp only [reduceWeight, reduceState_point, path_length h, rest_length h, read_head]
  cases r with
  | nil => simp
  | cons c r =>
    have hc : c ≠ 0 := fun hc => h.not_mem h0 (by simp [hc])
    simp [hc]

theorem weight_scan (h : Left str x junk r) (next : ℕ) : reduceWeight (reduceState str x junk r n (.scan next)) =
    (r.length + 1) * turn (str.length + 1) + (str.length + 1 + 2 + (str.length + 1 - next)) := by
  simp only [reduceWeight, reduceState_point, path_length h, rest_length h]

theorem weight_remove (h : Left str x junk r) :
    reduceWeight (reduceState str x junk r n .remove) = (r.length + 1) * turn (str.length + 1) + (1 + x.length) := by
  simp only [reduceWeight, reduceState_point, path_length h, rest_length h]
  rfl

theorem weight_write (h : Left str x junk r) (next : ℕ) (b : Bool) : reduceWeight (reduceState str x junk r n (.write next b)) =
    (str.length + 1 - next) * turn (str.length + 1) + (next + 1 - (x.length + junk.length)) := by
  simp only [reduceWeight, reduceState_point, path_length h]
  rfl

theorem advances_segment {kept : List Name} (h0 : 0 ∉ str) (hleft : Left str (lead str kept) junk r) (hne : r ≠ [])
    (hstack : Stack (isAbsolute str) kept n) (hres : Resolves str kept r) :
    Advances str (reduceState str (lead str kept) junk r n .segment) := by
  refine ⟨reduceState str (lead str kept) junk r n .skip, ?_, .skip hleft hstack hres, ?_⟩
  · obtain ⟨c, r, rfl⟩ := List.exists_cons_of_ne_nil hne
    have hc : c ≠ 0 := fun hc => hleft.not_mem h0 (by simp [hc])
    simp only [reduceStep, reduceState_point, read_head, List.cons_append, List.getElem?_cons_zero, Option.bind_some, if_pos hc]
    rfl
  · rw [weight_skip hleft, weight_segment h0 hleft, if_neg hne]
    omega

theorem resolves_slash {kept : List Name} : Resolves str kept (slash :: r) ↔ Resolves str kept r := by
  rw [Resolves, Resolves, segments_cons_sep]

theorem advances_skip {kept : List Name} (hleft : Left str (lead str kept) junk r)
    (hstack : Stack (isAbsolute str) kept n) (hres : Resolves str kept r) :
    Advances str (reduceState str (lead str kept) junk r n .skip) := by
  have hlen := hleft.length
  by_cases hhead : r.head? = some slash
  · obtain ⟨r, rfl⟩ : ∃ r', r = slash :: r' := by
      cases r with
      | nil => cases hhead
      | cons c r => exact ⟨r, by simpa using hhead⟩
    -- The character that was read over becomes part of the middle.
    have hleft' : Left str (lead str kept) (junk ++ [slash]) r :=
      @Left.advance str (lead str kept) junk r [slash] _ _ hleft (by simp; omega)
    refine ⟨reduceState str (lead str kept) (junk ++ [slash]) r n .skip, ?_, .skip hleft' hstack (resolves_slash.mp hres), ?_⟩
    · simp only [reduceStep, reduceState_point, read_head, List.cons_append, List.getElem?_cons_zero, Option.map_some, if_true]
      simp [reduceState, Nat.add_assoc]
    · rw [weight_skip hleft', weight_skip hleft, List.length_cons, Nat.succ_mul (r.length + 1)]
      simp only [turn]
      omega
  · obtain ⟨c, hc⟩ : ∃ c, (r ++ [0])[0]? = some c := ⟨_, List.getElem?_eq_getElem (by simp)⟩
    have hne : c ≠ slash := by
      rintro rfl
      cases r with
      | nil => exact absurd hc (by decide)
      | cons d r => exact hhead (by simpa using hc)
    refine ⟨_, ?_, @ReduceInv.scan str junk [] r n _ kept hleft List.not_mem_nil (fun _ => hhead) rfl hstack hres, ?_⟩
    · simp only [reduceStep, reduceState_point, read_head, hc, Option.map_some, if_neg hne]
      rfl
    · rw [weight_skip hleft]
      refine (weight_scan hleft _).trans_lt ?_
      omega

theorem inv_segment {kept : List Name} (hleft : Left str (lead str kept) junk r) (hstack : Stack (isAbsolute str) kept n)
    (hres : Resolves str kept r) : ReduceInv str (reduceState str (lead str kept) junk r n .segment) := by
  by_cases hne : r = []
  · subst hne
    exact .finished hleft hstack.segment (Or.inl rfl) hres
  · exact .segment hleft hne hstack hres

theorem weight_segment_le (h0 : 0 ∉ str) (h : Left str x junk r) : reduceWeight (reduceState str x junk r n .segment) <
    (r.length + 2) * turn (str.length + 1) := by
  rw [weight_segment h0 h, Nat.succ_mul (r.length + 1)]
  simp only [turn]
  split_ifs <;> omega

theorem reduceSegment_eq {w : List UInt8} {next : ℕ} (hnext : next = x.length + junk.length + w.length) :
    reduceSegment (reduceState str x junk (w ++ r) n point) next =
      if w = dot then some { reduceState str x junk (w ++ r) n point with
        read_pos := x.length + junk.length + 1, point := .segment }
      else if w = dotDot then reduceDotDot (reduceState str x junk (w ++ r) n point) next
      else some (reduceState str x junk (w ++ r) n (.write next true)) := by
  have hread : (reduceState str x junk (w ++ r) n point).read_pos = x.length + junk.length := rfl
  have hhead := @read_char str x junk (w ++ r) n point 0
  have hsecond := @read_char str x junk (w ++ r) n point 1
  simp only [reduceSegment]
  rw [Nat.add_zero] at hhead
  rw [hhead, hsecond, hread, hnext]
  match w with
  | [] => simp [reduceState, dot, dotDot]
  | [a] =>
    by_cases ha : a = 46
    · simp [reduceState, dot, ha]
    · simp [reduceState, dot, dotDot, ha]
  | [a, b] =>
    by_cases ha : a = 46
    · by_cases hb : b = 46
      · simp [dot, dotDot, ha, hb]
      · simp [reduceState, dot, dotDot, ha, hb]
    · simp [reduceState, dot, dotDot, ha]
  | a :: b :: c :: w => simp [reduceState, dot, dotDot]

theorem segments_cut {w : List UInt8} (hw : slash ∉ w) (hne : w ≠ []) (hcut : Cut r) :
    segments slash (w ++ r) = w :: segments slash r := by
  rcases hcut with rfl | ⟨r, rfl⟩
  · rw [List.append_nil, segments_of_not_mem hw hne, segments_nil]
  · rw [segments_append_sep, segments_of_not_mem hw hne, segments_cons_sep, List.singleton_append]

theorem inv_dropped {w : List UInt8} {kept : List Name} (h0 : 0 ∉ str) (hleft : Left str (lead str kept) junk (w ++ r))
    (hne : w ≠ []) (hstack : Stack (isAbsolute str) kept n) (hres : Resolves str kept r) :
    ReduceInv str (reduceState str (lead str kept) (junk ++ w) r n .segment) ∧
      reduceWeight (reduceState str (lead str kept) (junk ++ w) r n .segment) <
        ((w ++ r).length + 1) * turn (str.length + 1) := by
  have hleft' : Left str (lead str kept) (junk ++ w) r := hleft.advance (by simp; omega)
  refine ⟨inv_segment hleft' hstack hres, (weight_segment_le h0 hleft').trans_le (Nat.mul_le_mul_right _ ?_)⟩
  have := List.length_pos_of_ne_nil hne
  rw [List.length_append]
  omega

theorem advances_dot {kept : List Name} {next : ℕ} (h0 : 0 ∉ str) (hleft : Left str (lead str kept) junk (dot ++ r))
    (hcut : Cut r) (hstack : Stack (isAbsolute str) kept n) (hres : Resolves str kept (dot ++ r)) :
    ∃ t, some { reduceState str (lead str kept) junk (dot ++ r) n (.scan next) with
        read_pos := (lead str kept).length + junk.length + 1, point := .segment } = some t ∧ ReduceInv str t ∧
      reduceWeight t < reduceWeight (reduceState str (lead str kept) junk (dot ++ r) n (.scan next)) := by
  rw [Resolves, segments_cut (by decide) (by decide) hcut, resolve_dot] at hres
  obtain ⟨hinv, hlt⟩ := inv_dropped h0 hleft (by decide) hstack hres
  refine ⟨reduceState str (lead str kept) (junk ++ dot) r n .segment, ?_, hinv, hlt.trans_le ?_⟩
  · simp [reduceState, dot, Nat.add_assoc]
  · rw [weight_scan hleft]
    exact Nat.le_add_right _ _

theorem lead_getLast? {kept : List Name} (h : lead str kept ≠ []) : (lead str kept).getLast? = some slash := by
  cases kept with
  | nil =>
    unfold lead root text at h ⊢
    split_ifs at h ⊢
    · rfl
    · exact absurd rfl h
  | cons w kept => simp [lead, text]

/-- A segment `..` after a reducible one goes back to the slash before that. -/
theorem advances_remove {junk v r : List UInt8} {n : ℕ} {kept : List Name} (h0 : 0 ∉ str)
    (hleft : Left str (lead str kept ++ v) junk (dotDot ++ r)) (hv : slash ∉ v) (hcut : Cut r)
    (hstack : Stack (isAbsolute str) kept n) (hres : Resolves str kept r) :
    Advances str (reduceState str (lead str kept ++ v) junk (dotDot ++ r) (n + 1) .remove) := by
  rcases List.eq_nil_or_concat v with rfl | ⟨v, c, rfl⟩
  · rw [List.append_nil] at hleft ⊢
    obtain ⟨hinv, hlt⟩ := inv_dropped h0 hleft (by decide) hstack hres
    have hremoved : reduceStep (reduceState str (lead str kept) junk (dotDot ++ r) (n + 1) .remove) =
        some (reduceState str (lead str kept) (junk ++ dotDot) r n .segment) := by
      have hstate : { reduceState str (lead str kept) junk (dotDot ++ r) (n + 1) .remove with
          read_pos := (lead str kept).length + junk.length + 2, segments := n + 1 - 1, point := .segment } =
          reduceState str (lead str kept) (junk ++ dotDot) r n .segment := by
        simp [reduceState, dotDot, Nat.add_assoc]
      rw [← hstate]
      -- The text before ends with a slash when there is any.
      rcases List.eq_nil_or_concat (lead str kept) with hnil | ⟨y, c, hy⟩
      · simp [reduceStep, reduceState, hnil]
      · have hc : c = slash := by
          have hlast := lead_getLast? (show lead str kept ≠ [] by simp [hy])
          simpa [hy] using hlast
        simp [reduceStep, reduceState, hy, hc]
    refine ⟨_, hremoved, hinv, hlt.trans_le ?_⟩
    rw [weight_remove hleft]
    exact Nat.le_add_right _ _
  · have hc : c ≠ slash := fun hc => hv (by simp [hc])
    have hlen := hleft.length
    simp only [List.concat_eq_append, List.length_append, List.length_cons, List.length_nil] at hlen hleft ⊢
    have hleft' : Left str (lead str kept ++ v) (c :: junk) (dotDot ++ r) := by
      obtain ⟨read, hstr, hread⟩ := hleft
      exact ⟨read, hstr, by rw [hread]; simp; omega⟩
    refine ⟨reduceState str (lead str kept ++ v) (c :: junk) (dotDot ++ r) (n + 1) .remove, ?_,
      .remove hleft' (fun hin => hv (by simp [hin])) hcut hstack hres, ?_⟩
    · simp [reduceStep, reduceState, hc]
      omega
    · rw [weight_remove hleft', weight_remove hleft]
      simp

theorem weight_write_lt {w : List UInt8} {next : ℕ} (h : Left str x junk (w ++ r))
    (hnext : next = x.length + junk.length + w.length)
    (b : Bool) : reduceWeight (reduceState str x junk (w ++ r) n (.write next b)) <
      reduceWeight (reduceState str x junk (w ++ r) n (.scan next)) := by
  have hlen := h.length
  rw [List.length_append] at hlen
  rw [weight_write h, weight_scan h]
  have hmul : (str.length + 1 - next) * turn (str.length + 1) ≤ ((w ++ r).length + 1) * turn (str.length + 1) :=
    Nat.mul_le_mul_right _ (by rw [List.length_append]; omega)
  omega

theorem advances_dotDot {kept : List Name} {next : ℕ} (h0 : 0 ∉ str) (hleft : Left str (lead str kept) junk (dotDot ++ r))
    (hcut : Cut r) (hnext : next = (lead str kept).length + junk.length + 2)
    (hstack : Stack (isAbsolute str) kept n) (hres : Resolves str kept (dotDot ++ r)) :
    ∃ t, reduceDotDot (reduceState str (lead str kept) junk (dotDot ++ r) n (.scan next)) next = some t ∧ ReduceInv str t ∧
      reduceWeight t < reduceWeight (reduceState str (lead str kept) junk (dotDot ++ r) n (.scan next)) := by
  have hlen := hleft.length
  rw [Resolves, segments_cut (by decide) (by decide) hcut] at hres
  cases n with
  | succ n =>
    -- The slash after the last segment is given up first.
    obtain ⟨w, rest, rfl, hw, hrest⟩ := hstack.pop
    rw [resolve_remove hw] at hres
    have hlead : lead str (w :: rest) = lead str rest ++ w ++ [slash] := by simp [lead, text]
    rw [hlead] at hleft hlen ⊢
    have hleft' : Left str (lead str rest ++ w) (slash :: junk) (dotDot ++ r) := by
      obtain ⟨read, hstr, hread⟩ := hleft
      exact ⟨read, hstr, by rw [hread]; simp; omega⟩
    refine ⟨reduceState str (lead str rest ++ w) (slash :: junk) (dotDot ++ r) (n + 1) .remove, ?_,
      .remove hleft' (hstack.segment w List.mem_cons_self).2.1 hcut hrest hres, ?_⟩
    · simp [reduceDotDot, reduceState]
      omega
    · rw [weight_remove hleft', weight_scan hleft]
      simp only [List.length_append] at hlen ⊢
      omega
  | zero =>
    cases habs : isAbsolute str with
    | true =>
      rw [habs] at hres
      rw [resolve_absolute (habs ▸ hstack), ← habs] at hres
      obtain ⟨hinv, hlt⟩ := inv_dropped h0 hleft (by decide) hstack hres
      refine ⟨reduceState str (lead str kept) (junk ++ dotDot) r 0 .segment, ?_, hinv, hlt.trans_le ?_⟩
      · simp [reduceDotDot, reduceState, habs, dotDot, Nat.add_assoc]
      · rw [weight_scan hleft]
        exact Nat.le_add_right _ _
    | false =>
      rw [habs] at hres
      have hpush := (show Stack false kept 0 from habs ▸ hstack).push_dotDot
      rw [resolve_relative (habs ▸ hstack), ← habs] at hres
      rw [← List.append_nil (lead str kept)] at hleft ⊢
      refine ⟨reduceState str (lead str kept ++ []) junk (dotDot ++ r) 0 (.write next false), ?_,
        .write hleft (by decide) hcut (by rw [hnext]; simp [dotDot]) (by rw [habs]; exact hpush) hres, ?_⟩
      · simp [reduceDotDot, reduceState, habs]
      · exact weight_write_lt hleft (by rw [hnext]; simp [dotDot]) false

/-- The scan for the end of a segment, and what is done with the segment there. -/
theorem advances_scan {w : List UInt8} {kept : List Name} {next : ℕ} (h0 : 0 ∉ str)
    (hleft : Left str (lead str kept) junk (w ++ r))
    (hw : slash ∉ w) (hhead : w = [] → r.head? ≠ some slash) (hnext : next = (lead str kept).length + junk.length + w.length)
    (hstack : Stack (isAbsolute str) kept n) (hres : Resolves str kept (w ++ r)) :
    Advances str (reduceState str (lead str kept) junk (w ++ r) n (.scan next)) := by
  have hlen := hleft.length
  rw [List.length_append] at hlen
  have hchar : (reduceState str (lead str kept) junk (w ++ r) n (.scan next)).path[next]? = (r ++ [0])[0]? := by
    have hread := @read_char str (lead str kept) junk (w ++ r) n (.scan next) w.length
    rw [List.append_assoc, List.getElem?_append_right (le_refl _), Nat.sub_self] at hread
    rw [hnext]
    exact hread
  by_cases hcut : Cut r
  · have hend : reduceStep (reduceState str (lead str kept) junk (w ++ r) n (.scan next)) =
        reduceSegment (reduceState str (lead str kept) junk (w ++ r) n (.scan next)) next := by
      rcases hcut with rfl | ⟨r, rfl⟩
      · simp only [reduceStep, reduceState_point, hchar]
        simp
      · simp only [reduceStep, reduceState_point, hchar]
        simp
    unfold Advances
    rw [hend, reduceSegment_eq hnext]
    split_ifs with hdot hdots
    · subst hdot
      exact advances_dot h0 hleft hcut hstack hres
    · subst hdots
      exact advances_dotDot h0 hleft hcut hnext hstack hres
    · refine ⟨_, rfl, ?_, weight_write_lt hleft hnext true⟩
      by_cases hne : w = []
      · -- Slashes at the end of the string are followed by an empty segment.
        subst hne
        have hr : r = [] := by
          rcases hcut with rfl | ⟨r, rfl⟩
          · rfl
          · exact absurd rfl (hhead rfl)
        subst hr
        exact .blank hleft (by simpa using hnext) hstack.segment hres
      · rw [Resolves, segments_cut hw hne hcut, resolve_name hdot hdots] at hres
        have hinv := @ReduceInv.write str junk [] w r n next true kept (by simpa using hleft) hw hcut (by simpa using hnext)
          (hstack.push ⟨hne, hw, hdot⟩ hdots) hres
        rwa [List.append_nil] at hinv
  · obtain ⟨c, r, rfl⟩ : ∃ c r', r = c :: r' := List.exists_cons_of_ne_nil fun h => hcut (Or.inl h)
    have hc : c ≠ slash := fun hc => hcut (Or.inr ⟨r, by rw [hc]⟩)
    have hz : c ≠ 0 := fun hz => hleft.not_mem h0 (by simp [hz])
    have hsplit : w ++ c :: r = (w ++ [c]) ++ r := by simp
    rw [List.length_cons] at hlen
    refine ⟨reduceState str (lead str kept) junk (w ++ c :: r) n (.scan (next + 1)), ?_, ?_, ?_⟩
    · simp only [reduceStep, reduceState_point, hchar]
      simp [hz, hc]
      rfl
    · rw [hsplit] at hleft hres ⊢
      exact .scan hleft (by simp [hw, Ne.symm hc]) (fun h => by simp at h) (by rw [hnext]; simp; omega) hstack hres
    · rw [weight_scan hleft, weight_scan hleft]
      omega

theorem step_write_end {next : ℕ} {b : Bool} (hnext : next = x.length + junk.length) :
    reduceStep (reduceState str x junk [] n (.write next b)) =
      some (reduceState str x junk [] (if b then n + 1 else n) .segment) := by
  have hread : (reduceState str x junk [] n (.write next b)).read_pos ≤ next := by rw [hnext]; exact le_refl _
  simp only [reduceStep, reduceState_point, if_pos hread, read_head]
  simp [reduceState]

theorem step_write_char {next : ℕ} {b : Bool} {c : UInt8} (hc : c ≠ 0) (hnext : x.length + junk.length ≤ next) :
    ∃ junk', junk'.length = junk.length ∧ reduceStep (reduceState str x junk (c :: r) n (.write next b)) =
      some (reduceState str (x ++ [c]) junk' r n (.write next b)) := by
  obtain ⟨junk', hlen, hstore⟩ := @store_char x junk r c
  refine ⟨junk', hlen, ?_⟩
  have hread : (reduceState str x junk (c :: r) n (.write next b)).read_pos ≤ next := hnext
  simp only [reduceStep, reduceState_point, if_pos hread, read_head, List.cons_append, List.getElem?_cons_zero,
    Option.bind_some, if_pos hc]
  simp only [reduceState, hstore, Option.map_some, List.length_append, List.length_cons, List.length_nil, hlen]
  congr 2
  omega

theorem advances_write {v w : List UInt8} {next : ℕ} {b : Bool} {kept : List Name} (h0 : 0 ∉ str)
    (hleft : Left str (lead str kept ++ v) junk (w ++ r)) (hw : slash ∉ w) (hcut : Cut r)
    (hnext : next = (lead str kept ++ v).length + junk.length + w.length)
    (hstack : Stack (isAbsolute str) ((v ++ w) :: kept) (if b then n + 1 else n)) (hres : Resolves str ((v ++ w) :: kept) r) :
    Advances str (reduceState str (lead str kept ++ v) junk (w ++ r) n (.write next b)) := by
  have hlen := hleft.length
  cases w with
  | cons c w =>
    have hc : c ≠ 0 := fun hc => hleft.not_mem h0 (by simp [hc])
    obtain ⟨junk', hjunk, hstep⟩ := @step_write_char str (lead str kept ++ v) junk (w ++ r) n next b c hc (by omega)
    have hleft' : Left str (lead str kept ++ v ++ [c]) junk' (w ++ r) :=
      @Left.advance str (lead str kept ++ v) junk (w ++ r) [c] _ _ hleft (by simp [hjunk]; omega)
    have hsplit : v ++ c :: w = v ++ [c] ++ w := by simp
    rw [hsplit] at hstack hres
    refine ⟨_, hstep, ?_, ?_⟩
    · rw [List.append_assoc] at hleft' ⊢
      exact .write hleft' (fun hin => hw (List.mem_cons_of_mem c hin)) hcut (by rw [hnext]; simp [hjunk]; omega) hstack hres
    · refine (weight_write hleft' next b).trans_lt ?_
      refine (Nat.add_lt_add_left ?_ _).trans_eq (weight_write hleft next b).symm
      simp only [List.length_append, List.length_cons, List.length_nil, hjunk] at hnext ⊢
      omega
  | nil =>
    rw [List.append_nil] at hstack hres
    rw [List.nil_append] at hleft ⊢
    rcases hcut with rfl | ⟨r, rfl⟩
    · refine ⟨_, step_write_end hnext, .finished hleft hstack.segment (Or.inr ⟨by simp, by simp [lead, text]⟩) hres, ?_⟩
      rw [weight_segment h0 hleft, weight_write hleft, if_pos rfl]
      simp only [List.nil_append, List.length_nil] at hlen hnext ⊢
      rw [show str.length + 1 - next = 0 + 1 by omega]
      omega
    · obtain ⟨junk', hjunk, hstep⟩ := @step_write_char str (lead str kept ++ v) junk r n next b slash (by decide) (by omega)
      have hleft' : Left str (lead str kept ++ v ++ [slash]) junk' r :=
        @Left.advance str (lead str kept ++ v) junk r [slash] _ _ hleft (by simp [hjunk]; omega)
      have hlead : lead str kept ++ v ++ [slash] = lead str (v :: kept) := by simp [lead, text]
      refine ⟨_, hstep, ?_, ?_⟩
      · rw [hlead] at hleft' ⊢
        refine .written hleft' ?_ hstack (resolves_slash.mp hres)
        rw [← hlead, hnext]
        simp only [List.length_append, List.length_cons, List.length_nil, hjunk]
        omega
      · refine (weight_write hleft' next b).trans_lt ?_
        refine (Nat.add_lt_add_left ?_ _).trans_eq (weight_write hleft next b).symm
        simp only [List.length_append, List.length_cons, List.length_nil, hjunk] at hnext ⊢
        omega

theorem advances_written {next : ℕ} {b : Bool} {kept : List Name} (h0 : 0 ∉ str) (hleft : Left str (lead str kept) junk r)
    (hnext : next + 1 = (lead str kept).length + junk.length) (hstack : Stack (isAbsolute str) kept (if b then n + 1 else n))
    (hres : Resolves str kept r) : Advances str (reduceState str (lead str kept) junk r n (.write next b)) := by
  have hlen := hleft.length
  refine ⟨reduceState str (lead str kept) junk r (if b then n + 1 else n) .segment, ?_, inv_segment hleft hstack hres,
    (weight_segment_le h0 hleft).trans_le ?_⟩
  · have hread : ¬(reduceState str (lead str kept) junk r n (.write next b)).read_pos ≤ next := by
      simp only [reduceState]
      omega
    simp only [reduceStep, reduceState_point, if_neg hread]
    rfl
  · rw [weight_write hleft, show str.length + 1 - next = r.length + 2 by omega]
    exact Nat.le_add_right _ _

theorem advances_blank {next : ℕ} {b : Bool} {kept : List Name} (h0 : 0 ∉ str) (hleft : Left str (lead str kept) junk [])
    (hnext : next = (lead str kept).length + junk.length) (hkept : ∀ w ∈ kept, Kept w) (hres : Resolves str kept []) :
    Advances str (reduceState str (lead str kept) junk [] n (.write next b)) := by
  have hlen := hleft.length
  refine ⟨_, step_write_end hnext, .finished hleft hkept (Or.inl rfl) hres, ?_⟩
  rw [weight_segment h0 hleft, weight_write hleft, if_pos rfl]
  rw [List.length_nil] at hlen ⊢
  rw [show str.length + 1 - next = 0 + 1 by omega]
  omega

theorem canonical_of_resolves {kept : List Name} (hres : Resolves str kept []) :
    canonicalPath str = root (isAbsolute str) ++ [slash].intercalate kept.reverse := by
  rw [Resolves, segments_nil, resolve] at hres
  rw [canonicalPath, ← hres]

theorem store_end : ∃ junk', junk'.length = junk.length ∧ (junk' = [] ∨ junk'.head? = some 0) ∧
    store (x ++ junk ++ [0]) x.length 0 = some (x ++ junk' ++ [0]) := by
  cases junk with
  | nil => exact ⟨[], rfl, Or.inl rfl, by simp [store]⟩
  | cons j junk => exact ⟨0 :: junk, rfl, Or.inr rfl, by simp [store]⟩

theorem reduceEnd_kept (h : 1 < x.length → x.getLast? ≠ some slash) : ∃ junk', junk'.length = junk.length ∧
    (junk' = [] ∨ junk'.head? = some 0) ∧
      reduceEnd (reduceState str x junk [] n point) = some (reduceState str x junk' [] n .returned) := by
  obtain ⟨junk', hlen, hjunk, hstore⟩ := @store_end x junk
  refine ⟨junk', hlen, hjunk, ?_⟩
  by_cases hlong : 1 < x.length
  · obtain ⟨y, c, rfl⟩ := List.eq_nil_or_concat x |>.resolve_left (by rintro rfl; simp at hlong)
    have hc : c ≠ slash := by simpa using h hlong
    simp only [List.concat_eq_append] at hlong hstore ⊢
    simp [reduceEnd, reduceState, hc] at hstore ⊢
    simp [hstore, hlen]
  · rw [List.append_assoc] at hstore
    simp [reduceEnd, reduceState, hlong, hstore, hlen]

theorem advances_finished {kept : List Name} (hleft : Left str x junk [])
    (hkept : ∀ w ∈ kept, Kept w) (hx : x = lead str kept ∨ kept ≠ [] ∧ x ++ [slash] = lead str kept)
    (hres : Resolves str kept []) :
    Advances str (reduceState str x junk [] n .segment) := by
  have hcanonical := canonical_of_resolves hres
  -- It is enough that the last slash is removed when it does not belong to the path.
  suffices h : ∃ junk', junk'.length + (canonicalPath str).length = junk.length + x.length ∧ (junk' = [] ∨ junk'.head? = some 0) ∧
      reduceEnd (reduceState str x junk [] n .segment) = some (reduceState str (canonicalPath str) junk' [] n .returned) by
    obtain ⟨junk', hlen, hjunk, hend⟩ := h
    have hleft' : Left str (canonicalPath str) junk' [] := by
      obtain ⟨read, hstr, hread⟩ := hleft
      exact ⟨read, hstr, by omega⟩
    refine ⟨reduceState str (canonicalPath str) junk' [] n .returned, ?_, .returned hleft' hjunk, ?_⟩
    · simp only [reduceStep, reduceState_point, read_head]
      simpa using hend
    · simp only [reduceWeight, reduceState_point, path_length hleft, rest_length hleft]
      simp only [List.length_nil, turn]
      omega
  by_cases hne : kept = []
  · subst hne
    have hxroot : x = canonicalPath str := by
      rcases hx with rfl | ⟨hne, -⟩
      · simp [hcanonical, lead, text]
      · exact absurd rfl hne
    have hshort : ¬1 < x.length := by
      rw [hxroot, hcanonical, root]
      split_ifs <;> simp
    obtain ⟨junk', hlen, hjunk, hend⟩ := @reduceEnd_kept str x junk n .segment fun hlong => absurd hlong hshort
    exact ⟨junk', by rw [hlen, hxroot], hjunk, by rw [← hxroot]; exact hend⟩
  · obtain ⟨w, rest, rfl⟩ := List.exists_cons_of_ne_nil hne
    obtain ⟨hw, hslash, -⟩ := hkept w List.mem_cons_self
    have hlead : lead str (w :: rest) = canonicalPath str ++ [slash] := by
      rw [hcanonical, lead, text_eq (by simp), List.append_assoc]
    have hends : canonicalPath str = lead str rest ++ w := by
      have : lead str (w :: rest) = lead str rest ++ w ++ [slash] := by simp [lead, text]
      exact List.append_cancel_right (hlead.symm.trans this)
    have hpos : 0 < (canonicalPath str).length := by
      have := List.length_pos_of_ne_nil hw
      rw [hends, List.length_append]
      omega
    rcases hx with rfl | ⟨-, hx⟩
    · rw [hlead] at hleft ⊢
      obtain ⟨junk', hlen, hjunk, hstore⟩ := @store_end (canonicalPath str) (slash :: junk)
      refine ⟨junk', by rw [hlen]; simp; omega, hjunk, ?_⟩
      have hmemory : canonicalPath str ++ [slash] ++ junk ++ [0] = canonicalPath str ++ slash :: junk ++ [0] := by simp
      have hcursor : (canonicalPath str ++ [slash]).length + junk.length = (canonicalPath str).length + junk'.length := by
        simp [hlen]
        omega
      have hlong : 1 < (canonicalPath str ++ [slash]).length := by simpa using hpos
      simp only [reduceEnd, reduceState, List.nil_append, if_pos hlong, hmemory, hcursor]
      simpa using hstore
    · rw [hlead] at hx
      have hx := List.append_cancel_right hx
      have hlast : x.getLast? ≠ some slash := by
        rw [hx, hends]
        intro hlast
        obtain ⟨y, c, rfl⟩ := List.eq_nil_or_concat w |>.resolve_left hw
        simp only [List.concat_eq_append, ← List.append_assoc, List.getLast?_concat, Option.some.injEq] at hlast
        exact hslash (by simp [hlast])
      obtain ⟨junk', hlen, hjunk, hend⟩ := @reduceEnd_kept str x junk n .segment fun _ => hlast
      exact ⟨junk', by rw [hlen, hx], hjunk, by rw [← hx]; exact hend⟩

theorem ReduceInv.advances {s : ReduceState} (h0 : 0 ∉ str) (h : ReduceInv str s) (hpoint : s.point ≠ .returned) :
    Advances str s := by
  cases h with
  | segment hleft hne hstack hres => exact advances_segment h0 hleft hne hstack hres
  | finished hleft hkept hx hres => exact advances_finished hleft hkept hx hres
  | skip hleft hstack hres => exact advances_skip hleft hstack hres
  | scan hleft hw hhead hnext hstack hres => exact advances_scan h0 hleft hw hhead hnext hstack hres
  | remove hleft hv hcut hstack hres => exact advances_remove h0 hleft hv hcut hstack hres
  | write hleft hw hcut hnext hstack hres => exact advances_write h0 hleft hw hcut hnext hstack hres
  | written hleft hnext hstack hres => exact advances_written h0 hleft hnext hstack hres
  | blank hleft hnext hkept hres => exact advances_blank h0 hleft hnext hkept hres
  | returned hleft hjunk => exact absurd rfl hpoint

theorem reduceStart_inv (str : List UInt8) : ∃ s, reduceStart (str ++ [0]) = some s ∧ ReduceInv str s := by
  have hstack := stack_nil (isAbsolute str)
  by_cases habs : str.head? = some slash
  · obtain ⟨r, rfl⟩ : ∃ r, str = slash :: r := by
      cases str with
      | nil => cases habs
      | cons c r => exact ⟨r, by simpa using habs⟩
    have hlead : lead (slash :: r) [] = [slash] := rfl
    have hinv := @inv_segment (slash :: r) [] r 0 [] ⟨[slash], rfl, rfl⟩ hstack (resolves_slash.mp rfl)
    exact ⟨_, rfl, hinv⟩
  · have hlead : lead str [] = [] := by simp [lead, root, isAbsolute, text, habs]
    have hinv := @inv_segment str [] str 0 [] ⟨[], rfl, by rw [hlead]; rfl⟩ hstack rfl
    rw [hlead] at hinv
    refine ⟨_, ?_, hinv⟩
    cases str with
    | nil => rfl
    | cons c r =>
      have hc : c ≠ slash := by simpa using habs
      simp [reduceStart, reduceState, isAbsolute, hc]

structure CursorsSafe (str : List UInt8) (s : ReduceState) : Prop where
  order : s.insert_pos ≤ s.read_pos
  inside : s.read_pos ≤ str.length
  length : s.path.length = str.length + 1
  unread : s.path.drop s.read_pos = (str ++ [0]).drop s.read_pos
  access : (reduceStep s).isSome

theorem reduceState_safe (hleft : Left str x junk r) (haccess : (reduceStep (reduceState str x junk r n point)).isSome) :
    CursorsSafe str (reduceState str x junk r n point) where
  order := Nat.le_add_right _ _
  inside := by
    have := hleft.length
    simp only [reduceState]
    omega
  length := path_length hleft
  unread := by
    obtain ⟨read, hstr, hread⟩ := hleft
    have hleft : (x ++ junk ++ (r ++ [0])).drop (x.length + junk.length) = r ++ [0] := by
      rw [← List.length_append, List.drop_left]
    have hright : (read ++ (r ++ [0])).drop (x.length + junk.length) = r ++ [0] := by
      rw [← hread, List.drop_left]
    rw [hstr, List.append_assoc]
    exact hleft.trans hright.symm
  access := haccess

theorem ReduceInv.safe {s : ReduceState} (h0 : 0 ∉ str) (h : ReduceInv str s) : CursorsSafe str s := by
  have haccess : (reduceStep s).isSome := by
    by_cases hpoint : s.point = .returned
    · simp [reduceStep, hpoint]
    · obtain ⟨t, ht, -⟩ := h.advances h0 hpoint
      rw [ht]
      rfl
  cases h with
  | segment hleft => exact reduceState_safe hleft haccess
  | finished hleft => exact reduceState_safe hleft haccess
  | skip hleft => exact reduceState_safe hleft haccess
  | scan hleft => exact reduceState_safe hleft haccess
  | remove hleft => exact reduceState_safe hleft haccess
  | write hleft => exact reduceState_safe hleft haccess
  | written hleft => exact reduceState_safe hleft haccess
  | blank hleft => exact reduceState_safe hleft haccess
  | returned hleft => exact reduceState_safe hleft haccess

theorem Reducing.inv {s : ReduceState} (h0 : 0 ∉ str) (h : Reducing (str ++ [0]) s) : ReduceInv str s := by
  induction h with
  | start h =>
    obtain ⟨t, ht, hinv⟩ := reduceStart_inv str
    rw [ht] at h
    cases h
    exact hinv
  | step _ hpoint h ih =>
    obtain ⟨t, ht, hinv, -⟩ := ih.advances h0 hpoint
    rw [ht] at h
    cases h
    exact hinv

theorem ReduceInv.run {s : ReduceState} (h0 : 0 ∉ str) (h : ReduceInv str s) {fuel : ℕ} (hfuel : reduceWeight s < fuel) :
    ∃ t junk, reduceRun fuel s = some t ∧ t.path = canonicalPath str ++ 0 :: junk ∧ t.path.length = str.length + 1 := by
  induction fuel generalizing s with
  | zero => omega
  | succ fuel ih =>
    by_cases hpoint : s.point = .returned
    · rw [reduceRun, if_pos hpoint]
      cases h with
      | @returned junk n hleft hjunk =>
        rcases hjunk with rfl | hjunk
        · exact ⟨_, [], rfl, by simp [reduceState], path_length hleft⟩
        · obtain ⟨junk, rfl⟩ := List.head?_eq_some_iff.mp hjunk
          exact ⟨_, junk ++ [0], rfl, by simp [reduceState], path_length hleft⟩
      | _ => cases hpoint
    · obtain ⟨t, ht, hinv, hlt⟩ := h.advances h0 hpoint
      obtain ⟨u, junk, hrun, hpath⟩ := ih hinv (by omega)
      exact ⟨u, junk, by rw [reduceRun, if_neg hpoint, ht]; exact hrun, hpath⟩

end Steps

section Canonical
variable {absolute : Bool} {kept : List Name} {n : ℕ} {path : List UInt8}

theorem resolve_stack {ws : List Name} (h : Stack absolute kept n) (hws : ∀ w ∈ ws, w ≠ [] ∧ slash ∉ w) :
    ∃ kept' n', resolve absolute kept ws = kept'.reverse ∧ Stack absolute kept' n' := by
  induction ws generalizing kept n with
  | nil => exact ⟨kept, n, by rw [resolve], h⟩
  | cons w ws ih =>
    have hrest : ∀ v ∈ ws, v ≠ [] ∧ slash ∉ v := fun v hv => hws v (List.mem_cons_of_mem w hv)
    by_cases hdot : w = dot
    · rw [hdot, resolve_dot]
      exact ih h hrest
    · by_cases hdots : w = dotDot
      · rw [hdots]
        cases n with
        | succ n =>
          obtain ⟨v, rest, rfl, hv, hpop⟩ := h.pop
          rw [resolve_remove hv]
          exact ih hpop hrest
        | zero =>
          cases absolute with
          | true =>
            rw [resolve_absolute h]
            exact ih h hrest
          | false =>
            rw [resolve_relative h]
            exact ih h.push_dotDot hrest
      · rw [resolve_name hdot hdots]
        obtain ⟨hne, hslash⟩ := hws w List.mem_cons_self
        exact ih (h.push ⟨hne, hslash, hdot⟩ hdots) hrest

theorem resolve_names {l : List Name} (hl : ∀ w ∈ l, w ≠ dot ∧ w ≠ dotDot) :
    resolve absolute kept l = (l.reverse ++ kept).reverse := by
  induction l generalizing kept with
  | nil =>
    rw [resolve]
    rfl
  | cons w l ih =>
    obtain ⟨h1, h2⟩ := hl w List.mem_cons_self
    rw [resolve_name h1 h2, ih fun v hv => hl v (List.mem_cons_of_mem w hv)]
    simp

theorem resolve_dotDots (m k : ℕ) (l : List Name) : resolve false (List.replicate k dotDot) (List.replicate m dotDot ++ l) =
    resolve false (List.replicate (k + m) dotDot) l := by
  induction m generalizing k with
  | zero => rfl
  | succ m ih =>
    have hstack : Stack false (List.replicate k dotDot) 0 :=
      ⟨fun w hw => List.eq_of_mem_replicate hw ▸ kept_dotDot, [], k, rfl, rfl, List.not_mem_nil, fun h => by cases h⟩
    rw [List.replicate_succ, List.cons_append, resolve_relative hstack, ← List.replicate_succ, ih (k + 1)]
    congr 2
    omega

theorem Stack.resolved (h : Stack absolute kept n) : resolve absolute [] kept.reverse = kept.reverse := by
  obtain ⟨names, m, rfl, -, hno, habs⟩ := h.split
  have hnames : ∀ w ∈ names.reverse, w ≠ dot ∧ w ≠ dotDot := by
    intro w hw
    rw [List.mem_reverse] at hw
    exact ⟨(h.segment w (List.mem_append_left _ hw)).2.2, fun heq => hno (heq ▸ hw)⟩
  rw [List.reverse_append, List.reverse_replicate]
  cases absolute with
  | true =>
    rw [habs rfl, List.replicate_zero, List.nil_append, resolve_names hnames]
    simp
  | false =>
    refine (resolve_dotDots m 0 names.reverse).trans ?_
    rw [resolve_names hnames]
    simp

theorem canonical_segments (path : List UInt8) : ∃ kept n, Stack (isAbsolute path) kept n ∧
    resolve (isAbsolute path) [] (segments slash path) = kept.reverse ∧ segments slash (canonicalPath path) = kept.reverse := by
  obtain ⟨kept, n, hres, hstack⟩ := resolve_stack (stack_nil (isAbsolute path)) fun w hw => mem_segments hw
  have hjoin : segments slash ([slash].intercalate kept.reverse) = kept.reverse :=
    segments_intercalate fun w hw => ⟨(hstack.segment w (List.mem_reverse.mp hw)).1,
      (hstack.segment w (List.mem_reverse.mp hw)).2.1⟩
  refine ⟨kept, n, hstack, hres, ?_⟩
  rw [canonicalPath, hres, root]
  split_ifs
  · rw [List.singleton_append, segments_cons_sep, hjoin]
  · rw [List.nil_append, hjoin]

theorem canonical_absolute (path : List UInt8) : isAbsolute (canonicalPath path) = isAbsolute path := by
  obtain ⟨kept, n, hstack, hres, -⟩ := canonical_segments path
  rw [canonicalPath, hres, root]
  cases habs : isAbsolute path with
  | true => simp [isAbsolute]
  | false =>
    rw [if_neg (by decide), List.nil_append]
    cases hkept : kept.reverse with
    | nil => rfl
    | cons w ws =>
      obtain ⟨hne, hslash, -⟩ := hstack.segment w (List.mem_reverse.mp (by rw [hkept]; exact List.mem_cons_self))
      obtain ⟨c, w, rfl⟩ := List.exists_cons_of_ne_nil hne
      have hc : c ≠ slash := fun hc => hslash (by simp [hc])
      cases ws <;> simp [isAbsolute, hc]

theorem canonical_idem (path : List UInt8) : canonicalPath (canonicalPath path) = canonicalPath path := by
  obtain ⟨kept, n, hstack, hres, hsegs⟩ := canonical_segments path
  rw [canonicalPath, canonical_absolute, hsegs, hstack.resolved, canonicalPath, hres]

/-- Segments consist of characters of the path and of dots. -/
theorem resolve_chars {ws : List Name} {c : UInt8} (hc : c ≠ 46) (hkept : ∀ w ∈ kept, c ∉ w) (hws : ∀ w ∈ ws, c ∉ w) :
    ∀ w ∈ resolve absolute kept ws, c ∉ w := by
  have hdots : c ∉ dotDot := by simp [dotDot, hc]
  induction ws generalizing kept with
  | nil =>
    rw [resolve]
    exact fun w hw => hkept w (List.mem_reverse.mp hw)
  | cons v ws ih =>
    have hrest : ∀ w ∈ ws, c ∉ w := fun w hw => hws w (List.mem_cons_of_mem v hw)
    by_cases hdot : v = dot
    · rw [hdot, resolve_dot]
      exact ih hkept hrest
    · by_cases hdotDot : v = dotDot
      · have hnext : ∃ kept', resolve absolute kept (v :: ws) = resolve absolute kept' ws ∧ ∀ w ∈ kept', c ∉ w := by
          rw [resolve.eq_def]
          simp only [if_neg hdot, if_pos hdotDot]
          cases kept with
          | nil =>
            refine ⟨_, rfl, fun w hw => ?_⟩
            split_ifs at hw
            · cases hw
            · rw [List.mem_singleton] at hw
              rwa [hw]
          | cons u kept =>
            refine ⟨_, rfl, fun w hw => ?_⟩
            split_ifs at hw
            · rcases List.mem_cons.mp hw with rfl | hw
              · exact hdots
              · exact hkept w hw
            · exact hkept w (List.mem_cons_of_mem u hw)
        obtain ⟨kept', hnext, hkept'⟩ := hnext
        rw [hnext]
        exact ih hkept' hrest
      · rw [resolve_name hdot hdotDot]
        refine ih (fun w hw => ?_) hrest
        rcases List.mem_cons.mp hw with rfl | hw
        · exact hws w List.mem_cons_self
        · exact hkept w hw

theorem not_mem_intercalate {ws : List Name} {c : UInt8} (hc : c ≠ slash) (hws : ∀ w ∈ ws, c ∉ w) :
    c ∉ [slash].intercalate ws := by
  induction ws with
  | nil => simp
  | cons w ws ih =>
    have hw := hws w List.mem_cons_self
    have hrest := ih fun v hv => hws v (List.mem_cons_of_mem w hv)
    cases ws with
    | nil => simpa using hw
    | cons v ws =>
      rw [List.intercalate_cons_cons]
      simp [hw, hc, hrest]

theorem canonical_chars (h0 : 0 ∉ path) : 0 ∉ canonicalPath path := by
  have hsegs : ∀ w ∈ segments slash path, 0 ∉ w := fun w hw hin => h0 (mem_of_mem_segments hw hin)
  rw [canonicalPath, List.mem_append, not_or]
  constructor
  · unfold root
    split_ifs <;> decide
  · exact not_mem_intercalate (by decide) (resolve_chars (by decide) (by simp) hsegs)

theorem cString_append {s junk : List UInt8} (h0 : 0 ∉ s) : cString (s ++ 0 :: junk) = s := by
  rw [cString, List.takeWhile_append_of_pos]
  · simp
  · intro c hc
    have : c ≠ 0 := fun h => h0 (h ▸ hc)
    simpa using this

theorem inlineReducePath_canonical (h0 : 0 ∉ path) :
    ∃ steps, ∀ fuel, steps ≤ fuel → (inlineReducePath fuel (path ++ [0])).map cString = some (canonicalPath path) := by
  obtain ⟨s, hs, hinv⟩ := reduceStart_inv path
  refine ⟨reduceWeight s + 1, fun fuel hfuel => ?_⟩
  obtain ⟨t, junk, hrun, hpath, -⟩ := hinv.run h0 (show reduceWeight s < fuel by omega)
  rw [inlineReducePath, hs, Option.bind_some, hrun, Option.map_some, Option.map_some, hpath, cString_append (canonical_chars h0)]

/-- The function terminates with its cursors in order, and puts the canonical path in memory, which it does not change
again. -/
theorem inlineReducePath_normalises (h0 : 0 ∉ path) :
    (∀ s, Reducing (path ++ [0]) s → CursorsSafe path s) ∧
      (∃ steps, ∀ fuel, steps ≤ fuel → (inlineReducePath fuel (path ++ [0])).map cString = some (canonicalPath path)) ∧
      ∃ steps, ∀ fuel, steps ≤ fuel →
        (inlineReducePath fuel (canonicalPath path ++ [0])).map cString = some (canonicalPath path) := by
  refine ⟨fun s hs => (hs.inv h0).safe h0, inlineReducePath_canonical h0, ?_⟩
  have hagain := inlineReducePath_canonical (canonical_chars h0)
  rwa [canonical_idem] at hagain

/-- The path `a/..//./b/` -/
theorem inlineReducePath_mixed : 0 ∉ ([97, 47, 46, 46, 47, 47, 46, 47, 98, 47] : List UInt8) ∧
    canonicalPath [97, 47, 46, 46, 47, 47, 46, 47, 98, 47] = [98] ∧
    ∃ steps, ∀ fuel, steps ≤ fuel → (inlineReducePath fuel ([97, 47, 46, 46, 47, 47, 46, 47, 98, 47] ++ [0])).map
      cString = some [98] := by
  have h0 : 0 ∉ ([97, 47, 46, 46, 47, 47, 46, 47, 98, 47] : List UInt8) := by decide
  have hpath : canonicalPath [97, 47, 46, 46, 47, 47, 46, 47, 98, 47] = [98] := by decide
  obtain ⟨-, hrun, -⟩ := inlineReducePath_normalises h0
  rw [hpath] at hrun
  exact ⟨h0, hpath, hrun⟩

end Canonical

end SomeOs.Vfs
