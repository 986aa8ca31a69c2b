import Mathlib.Tactic

/-! Sequences of writes to cells: a cell holds what the last write that names it has left. -/

namespace EnvirMonitor.Machine
variable {ε K V : Type*} [DecidableEq K] {cell : ε → Option K} {val : ε → V}

def writeCell (cell : ε → Option K) (val : ε → V) (f : K → V) (e : ε) : K → V :=
  (cell e).elim f fun k => Function.update f k (val e)

def writeCells (cell : ε → Option K) (val : ε → V) (f : K → V) (es : List ε) : K → V :=
  es.foldl (writeCell cell val) f

def lastWriter (cell : ε → Option K) (es : List ε) (k : K) : Option ε :=
  (es.filter fun e => cell e = some k).getLast?

theorem writeCell_apply (f : K → V) (e : ε) (k : K) :
    writeCell cell val f e k = if cell e = some k then val e else f k := by
  rw [writeCell]
  cases hcell : cell e with
  | none => simp
  | some j =>
    simp only [Option.elim_some, Function.update_apply, Option.some_inj]
    exact if_congr eq_comm rfl rfl

@[simp] theorem writeCells_nil (f : K → V) : writeCells cell val f [] = f := rfl

@[simp] theorem writeCells_cons (f : K → V) (e : ε) (es : List ε) :
    writeCells cell val f (e :: es) = writeCells cell val (writeCell cell val f e) es := rfl

theorem writeCells_apply (f : K → V) (es : List ε) (k : K) :
    writeCells cell val f es k = (lastWriter cell es k).elim (f k) val := by
  induction es using List.reverseRecOn with
  | nil => rfl
  | append_singleton es e ih =>
    rw [writeCells, List.foldl_append, List.foldl_cons, List.foldl_nil, writeCell_apply, lastWriter,
      List.filter_append]
    by_cases he : cell e = some k
    · simp [he]
    · rw [if_neg he, List.filter_singleton, decide_eq_false he, cond_false, List.append_nil]
      exact ih

theorem writeCells_of_forall_ne {f : K → V} {es : List ε} {k : K} (h : ∀ e ∈ es, cell e ≠ some k) :
    writeCells cell val f es k = f k := by
  have hnone : (es.filter fun e => cell e = some k) = [] :=
    List.filter_eq_nil_iff.mpr fun e he => by simpa using h e he
  rw [writeCells_apply, lastWriter, hnone]
  rfl

theorem writeCells_of_agree {f : K → V} {es : List ε} {k : K} {v : V} (hex : ∃ e ∈ es, cell e = some k)
    (hall : ∀ e ∈ es, cell e = some k → val e = v) : writeCells cell val f es k = v := by
  obtain ⟨e, he, hcell⟩ := hex
  have hne : (es.filter fun e => cell e = some k) ≠ [] :=
    List.ne_nil_of_mem (List.mem_filter.mpr ⟨he, decide_eq_true hcell⟩)
  obtain ⟨hmem, hlast⟩ := List.mem_filter.mp (List.getLast_mem hne)
  rw [writeCells_apply, lastWriter, List.getLast?_eq_some_getLast hne, Option.elim_some]
  exact hall _ hmem (of_decide_eq_true hlast)

theorem writeCells_of_nodup {f : K → V} {es : List ε} (hnodup : (es.map cell).Nodup) {e : ε}
    (he : e ∈ es) {k : K} (hk : cell e = some k) : writeCells cell val f es k = val e := by
  apply writeCells_of_agree ⟨e, he, hk⟩
  intro e' he' hk'
  rw [List.inj_on_of_nodup_map hnodup he' he (hk'.trans hk.symm)]

end EnvirMonitor.Machine
