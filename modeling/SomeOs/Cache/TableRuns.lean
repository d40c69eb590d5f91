import SomeOs.Cache.Table

/-! # Runs of calls on the table of cached blocks

Blocks are inserted, looked up, used and reclaimed. The table has at all times the blocks of a map from
offsets, which is changed by the calls in the same way. A reclaim pass may free more than the blocks that
have to be freed: a block that moves from the first to the last slot is counted up twice.
-/
namespace SomeOs.Cache
open RobinHood

inductive TableCall where
  | insert (offset bytes : ℕ)
  | lookup (offset : ℕ)
  | use (offset : ℕ)
  | reclaim (priority : ℕ)

inductive TableResult where
  | done
  | found (block : Option CachedBlock)
  | freed (blocks : List CachedBlock) (any : Bool)

namespace TableCall

def run (table : CachedBlockTable) : TableCall → Option (TableResult × CachedBlockTable)
  | insert offset bytes => (insertIntoTable table offset bytes).map fun table => (.done, table)
  | lookup offset => (getFromTable table offset).map fun idx => (.found (idx.bind table.blocks), table)
  | use offset => (getFromTable table offset).map fun
    | some idx => (.found (table.blocks idx), lowerPriority table idx)
    | none => (.found none, table)
  | reclaim priority => (reclaimFunction priority table).map fun r => (.freed r.1.1 r.1.2, r.2)

def Fits (table : CachedBlockTable) : TableCall → Prop
  | insert offset _ => ∀ b, Holds table.capacity table.blocks b → b.offset ≠ offset
  | _ => True

end TableCall

/-- The calls so far with their results, and the table after them. -/
inductive TableRun : List (TableCall × TableResult) → CachedBlockTable → Prop
  | start : TableRun [] emptyTable
  | call {calls table call result table'} (h : TableRun calls table) (fits : call.Fits table)
    (run : call.run table = some (result, table')) : TableRun (calls ++ [(call, result)]) table'

/-- What a call does to a map. -/
inductive MapStep (m : ℕ → Option CachedBlock) : TableCall → TableResult → (ℕ → Option CachedBlock) → Prop
  | insert {offset bytes} (absent : m offset = none) :
    MapStep m (.insert offset bytes) .done (Function.update m offset (some ⟨offset, defaultPriority, bytes⟩))
  | lookup {offset} : MapStep m (.lookup offset) (.found (m offset)) m
  | use {offset} : MapStep m (.use offset) (.found (m offset)) (Function.update m offset ((m offset).map CachedBlock.lowered))
  | reclaim {priority m' freed} (reclaimed : Reclaimed m m' freed)
    (all : ∀ o b, m o = some b → priority ≤ b.priority → m' o = none) :
    MapStep m (.reclaim priority) (.freed freed (decide (freed.length ≠ 0))) m'

inductive MapRun : List (TableCall × TableResult) → (ℕ → Option CachedBlock) → Prop
  | start : MapRun [] fun _ => none
  | call {calls m call result m'} (h : MapRun calls m) (step : MapStep m call result m') : MapRun (calls ++ [(call, result)]) m'

/-- The table has the blocks of the map, each in one slot. The slots on the way to a block have blocks with probe lengths that do
not end the search for it. -/
structure Represents (table : CachedBlockTable) (m : ℕ → Option CachedBlock) : Prop where
  slot : ∀ o b, m o = some b → b.offset = o ∧ ∃! i, i < table.capacity ∧ table.blocks i = some b
  only : ∀ i b, i < table.capacity → table.blocks i = some b → m b.offset = some b
  ordered : ∀ i b, i < table.capacity → table.blocks i = some b → ∀ j ≤ probeLength table.capacity b.hash i,
    ∃ oth, table.blocks ((b.hash % table.capacity + j) % table.capacity) = some oth ∧
      j ≤ probeLength table.capacity oth.hash ((b.hash % table.capacity + j) % table.capacity)
  finite : {o | m o ≠ none}.Finite
  count : table.count = {o | m o ≠ none}.ncard

section Runs
variable {table : CachedBlockTable} {m : ℕ → Option CachedBlock} {K : Finset ℕ}

theorem TableInv.represents (h : TableInv table m K) : Represents table m := by
  have hset : {o | m o ≠ none} = (K : Set ℕ) := by
    ext o
    exact (h.keys o).symm
  refine ⟨fun o b hb => ⟨h.offset o b hb, ?_⟩, fun i b hi hb => h.map_eq hi hb, fun i b hi hb j hj => ?_, ?_, ?_⟩
  · obtain ⟨i, hi, hslot⟩ := (h.holds b).mpr (by rw [h.offset o b hb, hb])
    exact ⟨i, ⟨hi, hslot⟩, fun j hj => h.wf.unique j i b b hj.1 hi hj.2 hslot rfl⟩
  · exact h.wf.ordered.way hi hb (Nat.sub_add_cancel hj)
  · rw [hset]
    exact K.finite_toSet
  · rw [hset, Set.ncard_coe_finset, h.count]

/-- Every call ends, and does to the map what the table shows. -/
theorem TableCall.run_spec (h : TableInv table m K) {call : TableCall} (hfits : call.Fits table) :
    ∃ result table' m' K', call.run table = some (result, table') ∧ MapStep m call result m' ∧ TableInv table' m' K' := by
  cases call with
  | insert offset bytes =>
    have habsent : m offset = none := by
      by_contra hne
      obtain ⟨b, hb⟩ := Option.ne_none_iff_exists'.mp hne
      exact hfits b ((h.holds b).mpr (by rw [h.offset offset b hb, hb])) (h.offset offset b hb)
    obtain ⟨table', hins, hinv⟩ := insertIntoTable_spec h habsent bytes
    exact ⟨.done, table', _, _, by rw [TableCall.run, hins]; rfl, .insert habsent, hinv⟩
  | lookup offset =>
    rcases getFromTable_spec h offset with ⟨i, b, hi, hb, hm, hget⟩ | ⟨hm, hget⟩
    · exact ⟨.found (m offset), table, m, K, by rw [TableCall.run, hget, hm, ← hb]; rfl, .lookup, h⟩
    · exact ⟨.found (m offset), table, m, K, by rw [TableCall.run, hget, hm]; rfl, .lookup, h⟩
  | use offset =>
    rcases getFromTable_spec h offset with ⟨i, b, hi, hb, hm, hget⟩ | ⟨hm, hget⟩
    · have hlowered : b.lowered.offset = b.offset := by
        unfold CachedBlock.lowered
        split <;> rfl
      have hinv := h.replaced hi hb hlowered
      rw [h.offset offset b hm] at hinv
      refine ⟨.found (m offset), lowerPriority table i, _, K, by rw [TableCall.run, hget, hm, ← hb]; rfl, .use, ?_⟩
      rw [lowerPriority, hb, hm]
      exact hinv
    · refine ⟨.found (m offset), table, _, K, by rw [TableCall.run, hget, hm]; rfl, .use, ?_⟩
      rw [hm, Option.map_none, ← hm, Function.update_eq_self]
      exact h
  | reclaim priority =>
    obtain ⟨table', m', K', freed, hreclaim, hinv, hr, hall⟩ := reclaimFunction_spec priority h
    exact ⟨_, table', m', K', by rw [TableCall.run, hreclaim]; rfl, .reclaim hr hall, hinv⟩

theorem tableRun_inv {calls : List (TableCall × TableResult)} (h : TableRun calls table) :
    ∃ m K, MapRun calls m ∧ TableInv table m K := by
  induction h with
  | start => exact ⟨_, ∅, .start, emptyTable_inv⟩
  | call h hfits hrun ih =>
    obtain ⟨m, K, hmap, hinv⟩ := ih
    obtain ⟨result, table', m', K', hrun', hstep, hinv'⟩ := TableCall.run_spec hinv hfits
    rw [hrun'] at hrun
    cases hrun
    exact ⟨m', K', .call hmap hstep, hinv'⟩

/-- After every run the table has the blocks of the map after the same calls with the same results,
and every further call ends. -/
theorem tableRun_refines {calls : List (TableCall × TableResult)} (h : TableRun calls table) :
    ∃ m, MapRun calls m ∧ Represents table m ∧
      ∀ call : TableCall, call.Fits table → ∃ result table', call.run table = some (result, table') := by
  obtain ⟨m, K, hmap, hinv⟩ := tableRun_inv h
  refine ⟨m, hmap, hinv.represents, fun call hfits => ?_⟩
  obtain ⟨result, table', m', K', hrun, -, -⟩ := TableCall.run_spec hinv hfits
  exact ⟨result, table', hrun⟩

end Runs

/-- Of two blocks that are inserted one is used, and only the other one is reclaimed. -/
theorem tableRun_refines_inserted : ∃ calls table m, calls.map Prod.fst =
    [.insert 512 100, .insert 1024 200, .use 512, .reclaim 20] ∧
    TableRun calls table ∧ MapRun calls m ∧ Represents table m ∧ table.count = 1 := by
  have hrun : ((TableCall.insert 512 100).run emptyTable).any (fun r₁ =>
      decide (∀ i < r₁.2.capacity, ∀ b ∈ r₁.2.blocks i, b.offset ≠ 1024) && ((TableCall.insert 1024 200).run r₁.2).any (fun r₂ =>
        ((TableCall.use 512).run r₂.2).any (fun r₃ => ((TableCall.reclaim 20).run r₃.2).any (fun r₄ =>
          decide (r₄.2.count = 1))))) = true := by decide
  obtain ⟨r₁, h₁, hrun⟩ := (Option.any_eq_true _ _).mp hrun
  obtain ⟨hother, hrun⟩ := (Bool.and_eq_true _ _).mp hrun
  obtain ⟨r₂, h₂, hrun⟩ := (Option.any_eq_true _ _).mp hrun
  obtain ⟨r₃, h₃, hrun⟩ := (Option.any_eq_true _ _).mp hrun
  obtain ⟨r₄, h₄, hcount⟩ := (Option.any_eq_true _ _).mp hrun
  have hfirst : (TableCall.insert 512 100).Fits emptyTable := fun b hb => absurd hb (by simp [Holds, emptyTable])
  have hsecond : (TableCall.insert 1024 200).Fits r₁.2 := by
    rintro b ⟨i, hi, hb⟩
    exact of_decide_eq_true hother i hi b hb
  have huse : (TableCall.use 512).Fits r₂.2 := trivial
  have hreclaim : (TableCall.reclaim 20).Fits r₃.2 := trivial
  have hruns := TableRun.call (.call (.call (.call .start hfirst h₁) hsecond h₂) huse h₃) hreclaim h₄
  obtain ⟨m, hmap, hrep, -⟩ := tableRun_refines hruns
  exact ⟨_, r₄.2, m, rfl, hruns, hmap, hrep, of_decide_eq_true hcount⟩

end SomeOs.Cache
