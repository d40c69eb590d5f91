import SomeOs.Expr.Operands

/-! # How phrases are read

A loop of the evaluator gets on through a phrase with what is pending on its left. Where the
grammar and the evaluator agree in which operators belong together, the loop comes out with the
value of the phrase.
-/
namespace SomeOs.Expr
open Fuel

def Scanner.rest (s : Scanner) : List Str := s.args.drop s.off

def Scanner.skip (s : Scanner) (n : ℕ) : Scanner := { s with off := s.off + n }

abbrev Eval := ℕ → Scanner → Run (Str × Scanner)

abbrev Loop := ℕ → Str → Scanner → Run (Str × Scanner)

def joinText (rp : Option (Str × BinOp)) (fuel : ℕ) (s : Str) : Run Str :=
  match rp with
  | none => .ok s
  | some (r, op) => applyOp fuel op r s

def chainFrom (E : Eval) (L : Loop) (rp : Option (Str × BinOp)) (fuel : ℕ) (s : Scanner) : Run (Str × Scanner) := do
  let (snd, s) ← E fuel s
  L fuel (← joinText rp fuel snd) s

def ShowsPend : Option (Str × BinOp) → Option (Val × BinOp) → Prop
  | none, none => True
  | some (r, op), some (u, op') => Shows r u ∧ op = op'
  | _, _ => False

/-- The level reads the tokens `ts` as `v`. -/
def Reads (E : Eval) (n : ℕ) (ts : List Str) (v : Val) : Prop :=
  ∀ s rest, s.rest = ts ++ rest → Ends n rest →
    ∃ r, Shows r v ∧ Settles (fun fuel => E fuel s) (.ok (r, s.skip ts.length))

/-- The loop gets through the tokens `ts` with `v`. -/
def Passes (E : Eval) (L : Loop) (n : ℕ) (pend : Option (Val × BinOp)) (ts : List Str) (v : Val) : Prop :=
  ∀ rp, ShowsPend rp pend → ∀ s rest, s.rest = ts ++ rest → Ends n rest →
    ∃ r, Shows r v ∧ ∀ out, Settles (fun fuel => L fuel r (s.skip ts.length)) out →
      Settles (fun fuel => chainFrom E L rp fuel s) out

/-- The function is the loop of a level with the operators `ops`. -/
def IsLoop (ops : List BinOp) (E : Eval) (L : Loop) : Prop :=
  ∀ fuel res s, L (fuel + 1) res s = chainStep ops fuel (E fuel) (L fuel) res s

namespace Phrase

def eval {n : ℕ} (pend : Option (Val × BinOp)) (p : Phrase n) : Option Val := p.evalFrom Val.ofText Val.apply pend

def ops {n : ℕ} : Phrase n → List BinOp
  | operand _ _ => []
  | paren _ => []
  | one _ => []
  | more _ op _ rest => op :: rest.ops

def innerOps {n : ℕ} : Phrase n → List BinOp
  | operand _ _ => []
  | paren _ => []
  | one p => p.ops
  | more p _ _ rest => p.ops ++ rest.innerOps

/-- A chain of multiplicative operators is of one operator or of multiplications only, and there is
no `&` behind a `|`. -/
def WellGrouped {n : ℕ} : Phrase n → Prop
  | operand _ _ => True
  | paren e => e.WellGrouped
  | one p => p.WellGrouped
  | more p op _ rest => p.WellGrouped ∧ rest.WellGrouped ∧
      (op.level = 1 → rest.ops = [] ∨ op = .mul ∧ ∀ o ∈ rest.ops, o = .mul) ∧ (op = .or → rest.innerOps = [])

end Phrase

section
variable {n : ℕ} {s : Scanner} {t r : Str} {ts us rest : List Str} {u v w : Val} {op : BinOp} {ops : List BinOp}
  {E E' : Eval} {L : Loop} {pend : Option (Val × BinOp)} {rp : Option (Str × BinOp)}

theorem peek_eq (s : Scanner) : peek s = s.rest.head? := by
  rw [peek, Scanner.rest, List.head?_drop]
  split_ifs with h
  · rfl
  · exact (List.getElem?_eq_none (not_lt.mp h)).symm

theorem next_of_rest (h : s.rest = t :: ts) : next s = (some t, s.skip 1) := by
  have hhead : s.args[s.off]? = some t := by rw [← List.head?_drop, ← Scanner.rest, h, List.head?_cons]
  have hlt : s.off < s.count := (List.getElem?_eq_some_iff.mp hhead).1
  rw [next, if_pos hlt, hhead]
  rfl

theorem rest_skip (s : Scanner) (n : ℕ) : (s.skip n).rest = s.rest.drop n := by
  simp [Scanner.rest, Scanner.skip, List.drop_drop]

theorem rest_skip_append (h : s.rest = ts ++ rest) : (s.skip ts.length).rest = rest := by
  rw [rest_skip, h, List.drop_left]

theorem skip_skip (s : Scanner) (m n : ℕ) : (s.skip m).skip n = s.skip (m + n) := by
  simp [Scanner.skip, Nat.add_assoc]

theorem opOf_eq_none (hops : ∀ op ∈ ops, op.level ≤ n) (h : Ends n s.rest) : opOf ops (peek s) = none := by
  rw [peek_eq]
  refine List.find?_eq_none.mpr fun op hop heq => ?_
  exact h op (hops op hop) (by simpa [eq] using heq)

theorem opOf_of_mem (hop : op ∈ ops) : opOf ops (some op.text) = some op := by
  cases h : opOf ops (some op.text) with
  | none => exact absurd (List.find?_eq_none.mp h op hop) (by simp [eq])
  | some op' =>
    have heq := List.find?_some h
    simp only [eq, decide_eq_true_eq, Option.some.injEq] at heq
    rw [text_inj heq]

theorem mem_ops_of_level (op : BinOp) : op ∈ mulOps ∧ op.level = 1 ∨ op ∈ addOps ∧ op.level = 2 ∨
    op ∈ compOps ∧ op.level = 3 ∨ op ∈ andOrOps ∧ 4 ≤ op.level := by
  rcases op with _ | _ | _ | _ | _ | op | _ | _
  case comp => cases op <;> decide
  all_goals decide

theorem joinText_shows (h : Shows r v) (hrp : ShowsPend rp pend) (hjoin : Phrase.join Val.apply pend v = some w) :
    ∃ r', Shows r' w ∧ Settles (fun fuel => joinText rp fuel r) (.ok r') := by
  match rp, pend, hrp with
  | none, none, _ =>
    obtain rfl := Option.some.inj hjoin
    exact ⟨r, h, settles_const _⟩
  | some (r₀, op), some (u, _), ⟨hr₀, rfl⟩ => exact applyOp_shows hr₀ h hjoin

theorem Reads.passes (h : Reads E n ts v) (hjoin : Phrase.join Val.apply pend v = some w) : Passes E L n pend ts w := by
  intro rp hrp s rest hrest hends
  obtain ⟨r, hr, hrun⟩ := h s rest hrest hends
  obtain ⟨r', hr', hrun'⟩ := joinText_shows hr hrp hjoin
  exact ⟨r', hr', fun out hout => hrun.bind (hrun'.bind hout)⟩

theorem IsLoop.step (hL : IsLoop ops E L) (hop : op ∈ ops) (hrest : s.rest = op.text :: us) {out : Run (Str × Scanner)}
    (h : Settles (fun fuel => chainFrom E L (some (r, op)) fuel (s.skip 1)) out) :
    Settles (fun fuel => L fuel r s) out := by
  refine h.succ fun fuel => ?_
  rw [hL, chainStep, peek_eq, hrest, List.head?_cons, opOf_of_mem hop, next_of_rest hrest]
  rfl

theorem IsLoop.stops (hL : IsLoop ops E L) (hops : ∀ op ∈ ops, op.level ≤ n) (h : Ends n s.rest) :
    Settles (fun fuel => L fuel r s) (.ok (r, s)) := by
  refine (settles_const (Except.ok (r, s))).succ fun fuel => ?_
  rw [hL, chainStep, opOf_eq_none hops h]

theorem Passes.append (h : Passes E L n pend ts u) (hL : IsLoop ops E L) (hop : op ∈ ops) (hlevel : n < op.level)
    (hus : Passes E L n (some (u, op)) us v) : Passes E L n pend (ts ++ op.text :: us) v := by
  intro rp hrp s rest hrest hends
  rw [List.append_assoc, List.cons_append] at hrest
  obtain ⟨r, hr, hrun⟩ := h rp hrp s _ hrest (ends_op hlevel _)
  have hrest' := rest_skip_append hrest
  have hrest'' : ((s.skip ts.length).skip 1).rest = us ++ rest := by rw [rest_skip, hrest', List.drop_one, List.tail_cons]
  obtain ⟨r', hr', hrun'⟩ := hus (some (r, op)) ⟨hr, rfl⟩ _ rest hrest'' hends
  refine ⟨r', hr', fun out hout => hrun out (hL.step hop hrest' (hrun' out ?_))⟩
  rwa [skip_skip, skip_skip, Nat.add_comm 1, ← List.length_cons, ← List.length_append]

theorem Passes.reads {F : Eval} (h : Passes E L n none ts v) (hL : IsLoop ops F L) (hE' : ∀ fuel s, E' (fuel + 1) s = (do
      let (res, s) ← E fuel s
      L fuel res s)) {m : ℕ} (hm : n ≤ m) (hops : ∀ op ∈ ops, op.level ≤ m) : Reads E' m ts v := by
  intro s rest hrest hends
  obtain ⟨r, hr, hrun⟩ := h none trivial s rest hrest (hends.mono hm)
  refine ⟨r, hr, (hrun _ (hL.stops hops ?_)).succ fun fuel => ?_⟩
  · rwa [rest_skip_append hrest]
  · rw [hE', chainFrom]
    rfl

theorem isLoop_mulLoop : IsLoop mulOps evalMul mulLoop := fun _ _ _ => rfl

theorem isLoop_addLoop : IsLoop addOps evalMul addLoop := fun _ _ _ => rfl

theorem isLoop_compLoop : IsLoop compOps evalAdd compLoop := fun _ _ _ => rfl

theorem isLoop_andOrLoop : IsLoop andOrOps evalComp andOrLoop := fun _ _ _ => rfl

theorem level_le_of_mem : (∀ op ∈ mulOps, op.level ≤ 1) ∧ (∀ op ∈ addOps, op.level ≤ 2) ∧
    (∀ op ∈ compOps, op.level ≤ 3) ∧ ∀ op ∈ andOrOps, op.level ≤ 5 := by decide

theorem mem_mulOps (h : op.level = 1) : op ∈ mulOps := by
  have := mem_ops_of_level op
  grind

theorem mem_addOps (h : op.level = 2) : op ∈ addOps := by
  have := mem_ops_of_level op
  grind

theorem mem_compOps (h : op.level = 3) : op ∈ compOps := by
  have := mem_ops_of_level op
  grind

theorem mem_andOrOps (h : 4 ≤ op.level) : op ∈ andOrOps := by
  have := mem_ops_of_level op
  grind

theorem Passes.reads_mul (h : Passes evalPre mulLoop 0 none ts v) : Reads evalMul 1 ts v :=
  h.reads isLoop_mulLoop (fun _ _ => rfl) (by decide) level_le_of_mem.1

theorem Reads.evalAdd (h : Passes evalMul addLoop 1 none ts v) : Reads evalAdd 2 ts v :=
  h.reads isLoop_addLoop (fun _ _ => rfl) (by decide) level_le_of_mem.2.1

theorem Reads.evalComp (h : Passes Expr.evalAdd compLoop 2 none ts v) : Reads evalComp 3 ts v :=
  h.reads isLoop_compLoop (fun _ _ => rfl) (by decide) level_le_of_mem.2.2.1

theorem Reads.evalAndOr (h : Passes Expr.evalComp andOrLoop 3 none ts v) : Reads evalAndOr 5 ts v :=
  h.reads isLoop_andOrLoop (fun _ _ => rfl) (by decide) level_le_of_mem.2.2.2

theorem Reads.succ (h : Reads E n ts v) (hE' : ∀ fuel s, E' (fuel + 1) s = E fuel s) : Reads E' n ts v := by
  intro s rest hrest hends
  obtain ⟨r, hr, hrun⟩ := h s rest hrest hends
  exact ⟨r, hr, hrun.succ fun fuel => hE' fuel s⟩

theorem Reads.evalExpr (h : Passes Expr.evalComp andOrLoop 3 none ts v) : Reads evalExpr 5 ts v :=
  (Reads.evalAndOr h).succ fun _ _ => rfl

theorem evalPre_succ (hrest : s.rest = t :: ts) (ht : t ∉ reserved ∨ t = ['(']) (fuel : ℕ) :
    evalPre (fuel + 1) s = evalBase fuel s := by
  have hpeek : peek s = some t := by rw [peek_eq, hrest, List.head?_cons]
  have hkeywords : t ≠ ['s', 'u', 'b', 's', 't', 'r'] ∧ t ≠ ['i', 'n', 'd', 'e', 'x'] ∧
      t ≠ ['l', 'e', 'n', 'g', 't', 'h'] := by
    rcases ht with ht | rfl
    · simp only [reserved, List.mem_cons, not_or] at ht
      exact ⟨ht.2.2.1, ht.2.2.2.1, ht.2.2.2.2.1⟩
    · decide
  simp [evalPre, hpeek, eq, hkeywords]

theorem reads_operand (ht : t ∉ reserved) : Reads evalPre 0 [t] (.ofText t) := by
  intro s rest hrest _
  refine ⟨t, shows_ofText t, ?_⟩
  have hbase : ∀ fuel, evalBase (fuel + 1) s = .ok (t, s.skip 1) := by
    intro fuel
    simp only [reserved, List.mem_cons, not_or] at ht
    rw [evalBase, next_of_rest hrest]
    simp [eq, ht.1, ht.2.1, strdup]
  refine Settles.succ (g := fun fuel => evalBase fuel s) ?_ fun fuel => evalPre_succ hrest (Or.inl ht) fuel
  exact (settles_const (Except.ok (t, s.skip 1))).succ fun fuel => hbase fuel

theorem reads_paren (h : Reads evalExpr 5 ts v) : Reads evalPre 0 (['('] :: (ts ++ [[')']])) v := by
  intro s rest hrest _
  rw [List.cons_append, List.append_assoc, List.singleton_append] at hrest
  have hinner : (s.skip 1).rest = ts ++ [')'] :: rest := by rw [rest_skip, hrest, List.drop_one, List.tail_cons]
  obtain ⟨r, hr, hrun⟩ := h (s.skip 1) _ hinner (ends_close 5 rest)
  refine ⟨r, hr, ?_⟩
  refine Settles.succ (g := fun fuel => evalBase fuel s) ?_ fun fuel => evalPre_succ hrest (Or.inr rfl) fuel
  have hclose := next_of_rest (rest_skip_append hinner)
  rw [skip_skip, skip_skip] at hclose
  rw [skip_skip] at hrun
  refine Settles.succ (g := fun fuel => evalExpr fuel (s.skip 1) >>= fun r =>
    if eq (next r.2).1 [')'] then pure (r.1, (next r.2).2) else .error .reported) (hrun.bind ?_) fun fuel => ?_
  · have hlen : (['('] :: (ts ++ [[')']])).length = 1 + ts.length + 1 := by
      simp only [List.length_cons, List.length_append, List.length_nil]
      omega
    simp only [hclose, hlen]
    exact settles_const _
  · rw [evalBase, next_of_rest hrest]
    rfl

theorem reads_mul_more (hb : Reads evalPre 0 ts u) (hop : op.level = 1) (h : Reads evalMul 1 us v)
    (happly : Val.apply op u v = some w) : Reads evalMul 1 (ts ++ op.text :: us) w := by
  intro s rest hrest hends
  rw [List.append_assoc, List.cons_append] at hrest
  obtain ⟨r, hr, hrun⟩ := hb s _ hrest (ends_op (by omega) _)
  have hrest' := rest_skip_append hrest
  have hrest'' : ((s.skip ts.length).skip 1).rest = us ++ rest := by rw [rest_skip, hrest', List.drop_one, List.tail_cons]
  have hpasses : Passes evalMul mulLoop 1 (some (u, op)) us w := h.passes happly
  obtain ⟨r', hr', hrun'⟩ := hpasses (some (r, op)) ⟨hr, rfl⟩ _ rest hrest'' hends
  have hstop := hrun' _ (isLoop_mulLoop.stops level_le_of_mem.1 (by rwa [rest_skip_append hrest'']))
  have hstep := isLoop_mulLoop.step (mem_mulOps hop) hrest' hstop
  rw [skip_skip, skip_skip, Nat.add_comm 1, ← List.length_cons, ← List.length_append] at hstep
  refine ⟨r', hr', Settles.succ (g := fun fuel => do
    let (res, args) ← evalPre fuel s
    mulLoop fuel res args) (hrun.bind hstep) fun _ => rfl⟩

theorem reads_mul_one (hb : Reads evalPre 0 ts v) : Reads evalMul 1 ts v := by
  have hpasses : Passes evalPre mulLoop 0 none ts v := hb.passes rfl
  exact hpasses.reads_mul

namespace Phrase

theorem eval_one (pend : Option (Val × BinOp)) (p : Phrase n) :
    (one p).eval pend = (do join Val.apply pend (← p.eval none)) := rfl

theorem eval_more (pend : Option (Val × BinOp)) (p : Phrase n) (hop : op.level = n + 1) (q : Phrase (n + 1)) :
    (more p op hop q).eval pend = (do
      let x ← join Val.apply pend (← p.eval none)
      q.eval (some (x, op))) := rfl

theorem exists_one {p : Phrase (n + 1)} (h : p.ops = []) : ∃ q, p = one q := by
  cases p with
  | one q => exact ⟨q, rfl⟩
  | more q op hop rest => exact absurd h (List.cons_ne_nil _ _)

theorem eval_mul (p : Phrase 1) (hp : ∀ o ∈ p.ops, o = .mul) (u : Val) :
    p.eval (some (u, .mul)) = (do Val.apply .mul u (← p.eval none)) := by
  match p with
  | one p =>
    rw [eval_one, eval_one]
    cases p.eval none <;> rfl
  | more p op hop q =>
    obtain ⟨rfl, hq⟩ := List.forall_mem_cons.mp hp
    rw [eval_more, eval_more]
    cases p.eval none with
    | none => rfl
    | some v =>
      have hpending : join Val.apply (some (u, .mul)) v = Val.apply .mul u v := rfl
      simp only [Option.bind_eq_bind, Option.bind_some, hpending, eval_mul q hq]
      cases q.eval none with
      | none => cases Val.apply .mul u v <;> rfl
      | some w => exact Val.apply_mul_assoc u v w

theorem eval_chain (p : Phrase 1) (h : p.ops = [] ∨ op = .mul ∧ ∀ o ∈ p.ops, o = .mul) (u : Val) :
    p.eval (some (u, op)) = (do Val.apply op u (← p.eval none)) := by
  rcases h with h | ⟨rfl, h⟩
  · obtain ⟨q, rfl⟩ := exists_one h
    rw [eval_one, eval_one]
    cases q.eval none <;> rfl
  · exact eval_mul p h u

/-- What the evaluator does with a phrase, at each level. -/
def Runs : {n : ℕ} → Phrase n → Prop
  | 0, p => ∀ v, p.eval none = some v → Reads evalPre 0 p.tokens v
  | 1, p => ∀ v, p.eval none = some v → Reads evalMul 1 p.tokens v
  | 2, p => ∀ pend v, p.eval pend = some v → Passes evalMul addLoop 1 pend p.tokens v
  | 3, p => ∀ pend v, p.eval pend = some v → Passes evalAdd compLoop 2 pend p.tokens v
  | 4, p => ∀ pend v, p.eval pend = some v → Passes evalComp andOrLoop 3 pend p.tokens v
  | 5, p => ∀ pend v, pend = none ∨ p.innerOps = [] → p.eval pend = some v → Passes evalComp andOrLoop 3 pend p.tokens v
  | _, _ => True

theorem Runs.first {p : Phrase 4} (h : Runs p) (hp : pend = none ∨ p.ops = []) (hv : p.eval none = some u)
    (hjoin : join Val.apply pend u = some v) : Passes evalComp andOrLoop 3 pend p.tokens v := by
  refine h pend v ?_
  rcases hp with rfl | hp
  · rw [hv]
    exact hjoin
  · obtain ⟨q, rfl⟩ := exists_one hp
    rw [eval_one] at hv ⊢
    obtain ⟨w, hw, hwu⟩ := Option.bind_eq_some_iff.mp hv
    obtain rfl := Option.some.inj hwu
    rw [hw]
    exact hjoin

theorem runs_one (p : Phrase n) (h : Runs p) : Runs (one p) := by
  match n, p, h with
  | 0, p, h =>
    intro v hv
    obtain ⟨u, hu, huv⟩ := Option.bind_eq_some_iff.mp hv
    obtain rfl := Option.some.inj huv
    exact reads_mul_one (h u hu)
  | 1, p, h =>
    intro pend v hv
    obtain ⟨u, hu, huv⟩ := Option.bind_eq_some_iff.mp hv
    exact (h u hu).passes huv
  | 2, p, h =>
    intro pend v hv
    obtain ⟨u, hu, huv⟩ := Option.bind_eq_some_iff.mp hv
    exact (Reads.evalAdd (h none u hu)).passes huv
  | 3, p, h =>
    intro pend v hv
    obtain ⟨u, hu, huv⟩ := Option.bind_eq_some_iff.mp hv
    exact (Reads.evalComp (h none u hu)).passes huv
  | 4, p, h =>
    intro pend v hp hv
    obtain ⟨u, hu, huv⟩ := Option.bind_eq_some_iff.mp hv
    exact h.first hp hu huv
  | n + 5, p, h => trivial

theorem runs_more (p : Phrase n) (hop : op.level = n + 1) (q : Phrase (n + 1)) (hp : Runs p) (hq : Runs q)
    (hmul : op.level = 1 → q.ops = [] ∨ op = .mul ∧ ∀ o ∈ q.ops, o = .mul) (hor : op = .or → q.innerOps = []) :
    Runs (more p op hop q) := by
  match n, p, q, hp, hq with
  | 0, p, q, hp, hq =>
    intro v hv
    obtain ⟨u, hu, huv⟩ := Option.bind_eq_some_iff.mp hv
    rw [show join Val.apply none u = some u from rfl] at huv
    change q.eval (some (u, op)) = some v at huv
    rw [eval_chain q (hmul hop)] at huv
    obtain ⟨w, hw, hwv⟩ := Option.bind_eq_some_iff.mp huv
    exact reads_mul_more (hp u hu) hop (hq w hw) hwv
  | 1, p, q, hp, hq =>
    intro pend v hv
    obtain ⟨u, hu, huv⟩ := Option.bind_eq_some_iff.mp hv
    obtain ⟨w, hw, hwv⟩ := Option.bind_eq_some_iff.mp huv
    exact ((hp u hu).passes hw).append isLoop_addLoop (mem_addOps hop) (by omega) (hq _ v hwv)
  | 2, p, q, hp, hq =>
    intro pend v hv
    obtain ⟨u, hu, huv⟩ := Option.bind_eq_some_iff.mp hv
    obtain ⟨w, hw, hwv⟩ := Option.bind_eq_some_iff.mp huv
    exact ((Reads.evalAdd (hp none u hu)).passes hw).append isLoop_compLoop (mem_compOps hop) (by omega) (hq _ v hwv)
  | 3, p, q, hp, hq =>
    intro pend v hv
    obtain ⟨u, hu, huv⟩ := Option.bind_eq_some_iff.mp hv
    obtain ⟨w, hw, hwv⟩ := Option.bind_eq_some_iff.mp huv
    exact ((Reads.evalComp (hp none u hu)).passes hw).append isLoop_andOrLoop (mem_andOrOps (by omega)) (by omega)
      (hq _ v hwv)
  | 4, p, q, hp, hq =>
    intro pend v hpend hv
    obtain ⟨u, hu, huv⟩ := Option.bind_eq_some_iff.mp hv
    obtain ⟨w, hw, hwv⟩ := Option.bind_eq_some_iff.mp huv
    have hop' : op = .or := by
      cases op <;> first | rfl | exact absurd hop (by simp [BinOp.level])
    have hfirst : pend = none ∨ p.ops = [] := hpend.imp_right fun h => (List.append_eq_nil_iff.mp h).1
    exact (hp.first hfirst hu hw).append isLoop_andOrLoop (mem_andOrOps (by omega)) (by omega)
      (hq _ v (Or.inr (hor hop')) hwv)
  | n + 5, p, q, hp, hq => trivial

theorem WellGrouped.runs {p : Phrase n} (hg : p.WellGrouped) : Runs p := by
  induction p with
  | operand t ht =>
    intro v hv
    obtain rfl := Option.some.inj hv
    exact reads_operand ht
  | paren e ih =>
    intro v hv
    obtain ⟨u, hu, huv⟩ := Option.bind_eq_some_iff.mp hv
    obtain rfl := Option.some.inj huv
    exact reads_paren (Reads.evalExpr (ih hg none u (Or.inl rfl) hu))
  | one p ih => exact runs_one p (ih hg)
  | more p op hop q ihp ihq =>
    obtain ⟨hp, hq, hmul, hor⟩ := hg
    exact runs_more p hop q (ihp hp) (ihq hq) hmul hor

end Phrase

end

end SomeOs.Expr
