import SomeOs.Expr.Evaluation

/-! # Sentences and other arguments

A sentence has one value. What is not a sentence is reported where a parenthesis is not closed, and
where arithmetic or a comparison meets a text; the end of the arguments and what follows a sentence
are not looked at.
-/
namespace SomeOs.Expr
open Fuel

/-- The evaluator comes to `out` on the arguments behind the name of the program. -/
def ComesTo (prog : Str) (args : List Str) (out : Run (Str × Scanner)) : Prop :=
  Settles (fun fuel => evalExpr fuel (scannerOf prog args)) out

/-- A sentence is read to its end and gives its value; anything else, and a division by zero, is
reported. -/
def Evaluates (prog : Str) (args : List Str) : Prop :=
  (∀ e : Phrase 5, e.Integers → e.tokens = args → match e.value with
    | some v => ∃ r, isInteger r ∧ intValue r = v ∧ ComesTo prog args (.ok (r, ⟨prog :: args, args.length + 1⟩))
    | none => ComesTo prog args (.error .reported)) ∧
  ((∀ e : Phrase 5, e.Integers → e.tokens ≠ args) → ComesTo prog args (.error .reported))

/-- The evaluator finds `v` in the order of the grammar, and each routine handles its operands. -/
def Phrase.Gives {n : ℕ} (p : Phrase n) (v : Val) : Prop := p.WellGrouped ∧ p.eval none = some v

/-- Arguments that a level reports, with what is pending on its left. Nothing is evaluated before
that is not evaluated as it should be. -/
inductive Rejected : ℕ → Option (Val × BinOp) → List Str → Prop
  /-- Something else stands where a parenthesis is to be closed. -/
  | unclosed {e : Phrase 5} {v : Val} {rest : List Str} (he : e.Gives v) (hends : Ends 5 rest)
      (hrest : rest.head? ≠ some [')']) : Rejected 0 none (['('] :: (e.tokens ++ rest))
  | inside {ts : List Str} (h : Rejected 5 none ts) : Rejected 0 none (['('] :: ts)
  | mulOperand {ts : List Str} (h : Rejected 0 none ts) : Rejected 1 none ts
  | mulLater {p : Phrase 0} {v : Val} {op : BinOp} {ts : List Str} (hp : p.Gives v) (hop : op.level = 1)
      (h : Rejected 1 none ts) : Rejected 1 none (p.tokens ++ op.text :: ts)
  /-- A factor is a text. -/
  | mulRefused {p : Phrase 0} {q : Phrase 1} {u v : Val} {op : BinOp} {rest : List Str} (hp : p.Gives u)
      (hop : op.level = 1) (hq : q.Gives v) (htext : u.isText || v.isText) (hends : Ends 1 rest) :
      Rejected 1 none (p.tokens ++ op.text :: (q.tokens ++ rest))
  | operand {n : ℕ} {pend : Option (Val × BinOp)} {ts : List Str} (hn : n = 1 ∨ n = 2) (h : Rejected n none ts) :
      Rejected (n + 1) pend ts
  | later {n : ℕ} {p : Phrase n} {u v : Val} {op : BinOp} {pend : Option (Val × BinOp)} {ts : List Str}
      (hn : n = 1 ∨ n = 2) (hp : p.Gives u) (hjoin : Phrase.join Val.apply pend u = some v) (hop : op.level = n + 1)
      (h : Rejected (n + 1) (some (v, op)) ts) : Rejected (n + 1) pend (p.tokens ++ op.text :: ts)
  /-- The left or the right operand is a text. -/
  | refused {n : ℕ} {p : Phrase n} {u v : Val} {op : BinOp} {rest : List Str} (hn : n = 1 ∨ n = 2) (hp : p.Gives v)
      (hop : op.level = n + 1) (htext : u.isText || v.isText) (hends : Ends n rest) :
      Rejected (n + 1) (some (u, op)) (p.tokens ++ rest)
  | andOrOperand {ts : List Str} (h : Rejected 3 none ts) : Rejected 5 none ts
  | andOrLater {p : Phrase 3} {v : Val} {op : BinOp} {ts : List Str} (hp : p.Gives v) (hop : 4 ≤ op.level)
      (h : Rejected 5 none ts) : Rejected 5 none (p.tokens ++ op.text :: ts)

/-- Sentences whose chains of multiplicative operators are of one operator or of multiplications,
with no `&` behind a `|`, and with operands that each routine handles; and other arguments
that are rejected. -/
def Plain (args : List Str) : Prop :=
  (∃ e : Phrase 5, e.Integers ∧ e.WellGrouped ∧ (e.eval none).isSome ∧ e.tokens = args) ∨
    (∀ e : Phrase 5, e.Integers → e.tokens ≠ args) ∧ Rejected 5 none args

section
variable {n : ℕ} {s : Scanner} {r : Str} {ts us rest : List Str} {u v : Val} {op : BinOp} {ops : List BinOp}
  {E E' : Eval} {L : Loop} {pend : Option (Val × BinOp)} {rp : Option (Str × BinOp)}

theorem Phrase.Gives.reads_pre {p : Phrase 0} (h : p.Gives v) : Reads evalPre 0 p.tokens v := h.1.runs v h.2

theorem Phrase.Gives.reads_mul {p : Phrase 1} (h : p.Gives v) : Reads evalMul 1 p.tokens v := h.1.runs v h.2

theorem Phrase.Gives.reads_add {p : Phrase 2} (h : p.Gives v) : Reads evalAdd 2 p.tokens v :=
  Reads.evalAdd (h.1.runs none v h.2)

theorem Phrase.Gives.reads_comp {p : Phrase 3} (h : p.Gives v) : Reads evalComp 3 p.tokens v :=
  Reads.evalComp (h.1.runs none v h.2)

theorem Phrase.Gives.reads_expr {p : Phrase 5} (h : p.Gives v) : Reads evalExpr 5 p.tokens v :=
  Reads.evalExpr (h.1.runs none v (Or.inl rfl) h.2)

def Reports (E : Eval) (ts : List Str) : Prop := ∀ s, s.rest = ts → Settles (fun fuel => E fuel s) (.error .reported)

def ReportsFrom (E : Eval) (L : Loop) (rp : Option (Str × BinOp)) (ts : List Str) : Prop := Reports (chainFrom E L rp) ts

theorem Reports.chainFrom (h : Reports E ts) : ReportsFrom E L rp ts := fun s hs => (h s hs).bind_error

theorem ReportsFrom.reports (h : ReportsFrom E L none ts) (hE' : ∀ fuel s, E' (fuel + 1) s = (do
    let (res, s) ← E fuel s
    L fuel res s)) : Reports E' ts := by
  intro s hs
  refine (h s hs).succ fun fuel => ?_
  rw [hE', Expr.chainFrom]
  rfl

theorem ReportsFrom.later (hts : Reads E n ts u) (hL : IsLoop ops E L) (hop : op ∈ ops) (hlevel : n < op.level)
    (hjoin : ∀ r, Shows r u → ∃ r', Settles (fun fuel => joinText rp fuel r) (.ok r') ∧
      ReportsFrom E L (some (r', op)) us) : ReportsFrom E L rp (ts ++ op.text :: us) := by
  intro s hrest
  obtain ⟨r, hr, hrun⟩ := hts s _ hrest (ends_op hlevel _)
  obtain ⟨r', hjoin, hus⟩ := hjoin r hr
  have hrest' := rest_skip_append hrest
  exact hrun.bind (hjoin.bind (hL.step hop hrest' (hus _ (by rw [rest_skip, hrest', List.drop_one, List.tail_cons]))))

theorem ReportsFrom.refused (hts : Reads E n ts v) (hends : Ends n rest) (hr : Shows r u) (hop : op.level ≤ 3)
    (htext : u.isText || v.isText) : ReportsFrom E L (some (r, op)) (ts ++ rest) := by
  intro s hrest
  obtain ⟨r', hr', hrun⟩ := hts s rest hrest hends
  have hrefused : Settles (fun fuel => joinText (some (r, op)) fuel r') (.error .reported) :=
    (settles_const _).congr fun fuel => applyOp_text hop hr hr' htext fuel
  exact hrun.bind hrefused.bind_error

theorem reports_mul (hts : Reads evalPre 0 ts u) (hop : op.level = 1)
    (h : ∀ r, Shows r u → ReportsFrom evalMul mulLoop (some (r, op)) us) : Reports evalMul (ts ++ op.text :: us) := by
  intro s hrest
  obtain ⟨r, hr, hrun⟩ := hts s _ hrest (ends_op (by omega) _)
  have hrest' := rest_skip_append hrest
  have hstep := isLoop_mulLoop.step (mem_mulOps hop) hrest' (h r hr _ (by rw [rest_skip, hrest', List.drop_one, List.tail_cons]))
  exact Settles.succ (g := fun fuel => do
    let (res, args) ← evalPre fuel s
    mulLoop fuel res args) (hrun.bind hstep) fun _ => rfl

theorem reports_paren (h : ∀ s, s.rest = ts → Settles (fun fuel => (do
      let (res, args) ← evalExpr fuel s
      let (arg, args) := next args
      if eq arg [')'] then pure (res, args) else .error .reported : Run (Str × Scanner))) (.error .reported)) :
    Reports evalPre (['('] :: ts) := by
  intro s hrest
  refine Settles.succ (g := fun fuel => evalBase fuel s) ?_ fun fuel => evalPre_succ hrest (Or.inr rfl) fuel
  refine (h (s.skip 1) (by rw [rest_skip, hrest, List.drop_one, List.tail_cons])).succ fun fuel => ?_
  rw [evalBase, next_of_rest hrest]
  rfl

theorem reports_unclosed (h : Reads evalExpr 5 ts v) (hends : Ends 5 rest) (hrest : rest.head? ≠ some [')']) :
    Reports evalPre (['('] :: (ts ++ rest)) := by
  refine reports_paren fun s hs => ?_
  obtain ⟨r, -, hrun⟩ := h s rest hs hends
  refine hrun.bind ?_
  have hnext : (next (s.skip ts.length)).1 = rest.head? := by
    cases hcons : rest with
    | nil =>
      have hnil : (s.skip ts.length).rest = [] := by rw [rest_skip_append hs, hcons]
      have hle : ¬(s.skip ts.length).off < (s.skip ts.length).count := not_lt.mpr (List.drop_eq_nil_iff.mp hnil)
      rw [next, if_neg hle]
      rfl
    | cons t ts' =>
      have hcons' : (s.skip ts.length).rest = t :: ts' := by rw [rest_skip_append hs, hcons]
      rw [next_of_rest hcons']
      rfl
  have hne : eq (next (s.skip ts.length)).1 [')'] = false := by
    rw [hnext, eq, decide_eq_false_iff_not]
    exact hrest
  simp only [hne]
  exact settles_const _

/-- What the rules say, at each level. -/
def RejectedRuns : ℕ → Option (Val × BinOp) → List Str → Prop
  | 0, _, ts => Reports evalPre ts
  | 1, _, ts => Reports evalMul ts
  | 2, pend, ts => ∀ rp, ShowsPend rp pend → ReportsFrom evalMul addLoop rp ts
  | 3, pend, ts => ∀ rp, ShowsPend rp pend → ReportsFrom evalAdd compLoop rp ts
  | 5, _, ts => ∀ rp : Option (Str × BinOp), (∀ r op, rp = some (r, op) → 4 ≤ op.level) →
      ReportsFrom evalComp andOrLoop rp ts
  | _, _, _ => True

theorem showsPend_some {op' : BinOp} (h : ShowsPend rp (some (u, op'))) : ∃ r, rp = some (r, op') ∧ Shows r u := by
  match rp, h with
  | some (r, op), ⟨hr, hop⟩ => exact ⟨r, by rw [hop], hr⟩

theorem joinText_andOr (hrp : ∀ r op, rp = some (r, op) → 4 ≤ op.level) (s : Str) :
    ∃ r, Settles (fun fuel => joinText rp fuel s) (.ok r) := by
  match rp, hrp with
  | none, _ => exact ⟨s, settles_const _⟩
  | some (r, op), hrp =>
    have hop := hrp r op rfl
    cases op with
    | and => exact ⟨_, settles_const _⟩
    | or => exact ⟨_, settles_const _⟩
    | _ => exact absurd hop (by simp [BinOp.level])

theorem Rejected.runs (h : Rejected n pend ts) : RejectedRuns n pend ts := by
  induction h with
  | unclosed he hends hrest => exact reports_unclosed he.reads_expr hends hrest
  | inside _ ih =>
    refine reports_paren fun s hs => Settles.bind_error (Settles.succ ?_ fun fuel => rfl)
    have hreport : Reports evalAndOr _ := ReportsFrom.reports (ih none (fun _ _ h => absurd h (by simp))) fun _ _ => rfl
    exact hreport s hs
  | mulOperand _ ih => exact ReportsFrom.reports (L := mulLoop) ih.chainFrom fun _ _ => rfl
  | mulLater hp hop _ ih => exact reports_mul hp.reads_pre hop fun r _ => ih.chainFrom
  | mulRefused hp hop hq htext hends =>
    exact reports_mul hp.reads_pre hop fun r hr => ReportsFrom.refused hq.reads_mul hends hr (by omega) htext
  | operand hn _ ih =>
    rcases hn with rfl | rfl
    · exact fun rp _ => ih.chainFrom
    · have hreport : Reports evalAdd _ := ReportsFrom.reports (ih none trivial) fun _ _ => rfl
      exact fun rp _ => hreport.chainFrom
  | later hn hp hjoin hop _ ih =>
    rcases hn with rfl | rfl
    · refine fun rp hrp => ReportsFrom.later hp.reads_mul isLoop_addLoop (mem_addOps hop) (by omega) fun r hr => ?_
      obtain ⟨r', hr', hrun⟩ := joinText_shows hr hrp hjoin
      exact ⟨r', hrun, ih _ ⟨hr', rfl⟩⟩
    · refine fun rp hrp => ReportsFrom.later hp.reads_add isLoop_compLoop (mem_compOps hop) (by omega) fun r hr => ?_
      obtain ⟨r', hr', hrun⟩ := joinText_shows hr hrp hjoin
      exact ⟨r', hrun, ih _ ⟨hr', rfl⟩⟩
  | refused hn hp hop htext hends =>
    rcases hn with rfl | rfl
    · intro rp hrp
      obtain ⟨r, rfl, hr⟩ := showsPend_some hrp
      exact ReportsFrom.refused hp.reads_mul hends hr (by omega) htext
    · intro rp hrp
      obtain ⟨r, rfl, hr⟩ := showsPend_some hrp
      exact ReportsFrom.refused hp.reads_add hends hr (by omega) htext
  | andOrOperand _ ih =>
    have hreport : Reports evalComp _ := ReportsFrom.reports (ih none trivial) fun _ _ => rfl
    exact fun rp _ => hreport.chainFrom
  | andOrLater hp hop _ ih =>
    refine fun rp hrp => ReportsFrom.later hp.reads_comp isLoop_andOrLoop (mem_andOrOps hop) (by omega) fun r _ => ?_
    obtain ⟨r', hrun⟩ := joinText_andOr hrp r
    refine ⟨r', hrun, ih _ fun _ _ h => ?_⟩
    obtain ⟨-, rfl⟩ := Prod.mk.inj (Option.some.inj h)
    exact hop

/-- The sign and the value of an operand, with what is pending. -/
theorem Phrase.Integers.value {p : Phrase n} (hp : p.Integers) (pend : Option (Signed × BinOp))
    (h : p.eval (pend.map fun x => (.int x.1, x.2)) = some v) :
    ∃ x, v = .int x ∧ p.evalFrom intValue BinOp.value (pend.map fun x => (x.1.value, x.2)) = some x.value := by
  have hjoin : ∀ (pend : Option (Signed × BinOp)) (y : Signed) (w : Val),
      join Val.apply (pend.map fun x => (Val.int x.1, x.2)) (.int y) = some w →
        ∃ z, w = .int z ∧ join BinOp.value (pend.map fun x => (x.1.value, x.2)) y.value = some z.value := by
    intro pend y w h
    match pend, h with
    | none, h => exact ⟨y, (Option.some.inj h).symm, rfl⟩
    | some (x, op), h => exact Val.apply_int h
  induction p generalizing pend v with
  | operand t ht =>
    have hint : Val.ofText t = .int ⟨isNeg t, natValue (magnitude t), t.length⟩ := if_pos hp
    have hval : intValue t = Signed.value ⟨isNeg t, natValue (magnitude t), t.length⟩ := intValue_eq t
    change join Val.apply _ (Val.ofText t) = some v at h
    rw [hint] at h
    obtain ⟨z, hz, hzv⟩ := hjoin pend _ _ h
    rw [← hval] at hzv
    exact ⟨z, hz, hzv⟩
  | paren e ih =>
    obtain ⟨u, hu, huv⟩ := Option.bind_eq_some_iff.mp h
    obtain ⟨x, rfl, hx⟩ := ih hp none hu
    obtain ⟨z, hz, hzv⟩ := hjoin pend x v huv
    exact ⟨z, hz, Option.bind_eq_some_iff.mpr ⟨x.value, hx, hzv⟩⟩
  | one p ih =>
    obtain ⟨u, hu, huv⟩ := Option.bind_eq_some_iff.mp h
    obtain ⟨x, rfl, hx⟩ := ih hp none hu
    obtain ⟨z, hz, hzv⟩ := hjoin pend x v huv
    exact ⟨z, hz, Option.bind_eq_some_iff.mpr ⟨x.value, hx, hzv⟩⟩
  | more p op hop q ihp ihq =>
    obtain ⟨u, hu, huv⟩ := Option.bind_eq_some_iff.mp h
    obtain ⟨w, hw, hwv⟩ := Option.bind_eq_some_iff.mp huv
    obtain ⟨x, rfl, hx⟩ := ihp hp.1 none hu
    obtain ⟨z, rfl, hzv⟩ := hjoin pend x w hw
    obtain ⟨y, hy, hyv⟩ := ihq hp.2 (some (z, op)) hwv
    exact ⟨y, hy, Option.bind_eq_some_iff.mpr ⟨x.value, hx, Option.bind_eq_some_iff.mpr ⟨z.value, hzv, hyv⟩⟩⟩

/-- Plain arguments are evaluated by the standard grammar. -/
theorem evalExpr_evaluates (prog : Str) (args : List Str) (h : Plain args) : Evaluates prog args := by
  have hrest : (scannerOf prog args).rest = args := rfl
  rcases h with ⟨e, hint, hgroup, hsome, htokens⟩ | ⟨hnone, hrej⟩
  · obtain ⟨v, hv⟩ := Option.isSome_iff_exists.mp hsome
    refine ⟨fun e' _ htokens' => ?_, fun hnone => absurd htokens (hnone e hint)⟩
    obtain rfl := Phrase.tokens_inj (htokens'.trans htokens.symm)
    obtain ⟨x, rfl, hx⟩ := hint.value none hv
    have hgives : e'.Gives (.int x) := ⟨hgroup, hv⟩
    obtain ⟨r, hr, hrun⟩ := hgives.reads_expr (scannerOf prog args) [] (by rw [hrest, htokens, List.append_nil]) (ends_nil 5)
    have hx : e'.value = some x.value := hx
    rw [hx]
    refine ⟨r, hr.1, hr.value, ?_⟩
    rw [htokens, Scanner.skip, scannerOf, Nat.add_comm] at hrun
    exact hrun
  · refine ⟨fun e hint htokens => absurd htokens (hnone e hint), fun _ => ?_⟩
    have hreport : Reports evalAndOr args :=
      ReportsFrom.reports (hrej.runs none (fun _ _ h => absurd h (by simp))) fun _ _ => rfl
    exact (hreport _ hrest).succ fun _ => rfl

theorem evalExpr_evaluates_sum : Evaluates ['e'] [['1'], ['-'], ['2'], ['-'], ['3']] := by
  refine evalExpr_evaluates _ _ (Or.inl ⟨.one (.one (.one (.more (.one (.operand ['1'] (by decide))) .sub rfl
    (.more (.one (.operand ['2'] (by decide))) .sub rfl (.one (.one (.operand ['3'] (by decide)))))))), ?_, ?_, ?_, rfl⟩)
  · exact ⟨rfl, rfl, rfl⟩
  · simp [Phrase.WellGrouped, BinOp.level]
  · decide

/-- A quotient of quotients is taken from the right. -/
theorem quotients_not_evaluated : ¬Evaluates ['e'] [['8'], ['/'], ['4'], ['/'], ['2']] := by
  intro h
  have hmul : Reads evalMul 1 [['8'], ['/'], ['4'], ['/'], ['2']] (.int ⟨false, 4, 5⟩) :=
    reads_mul_more (reads_operand (by decide)) (rfl : BinOp.div.level = 1)
      (reads_mul_more (reads_operand (by decide)) (rfl : BinOp.div.level = 1) (reads_mul_one (reads_operand (by decide)))
        rfl) rfl
  have hexpr := Reads.evalExpr ((Reads.evalComp ((Reads.evalAdd (hmul.passes rfl)).passes rfl)).passes rfl)
  obtain ⟨r, hr, hrun⟩ := hexpr (scannerOf ['e'] [['8'], ['/'], ['4'], ['/'], ['2']]) [] rfl (ends_nil 5)
  obtain ⟨r', -, hval, hrun'⟩ := h.1 (.one (.one (.one (.one (.more (.operand ['8'] (by decide)) .div rfl
    (.more (.operand ['4'] (by decide)) .div rfl (.one (.operand ['2'] (by decide)))))))))
    (by exact ⟨rfl, rfl, rfl⟩) rfl
  obtain ⟨rfl, -⟩ := Prod.mk.inj (Except.ok.inj (hrun.unique hrun'))
  rw [hr.value] at hval
  exact absurd hval (by decide)

end

end SomeOs.Expr
