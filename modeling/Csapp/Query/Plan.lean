import Csapp.Query.Iter

/-!
# Query.Plan — plans and their translation, `01-query-executor/parser`

`translatePlan` builds the tree of iterators from the last operation to the first; `none` is `log.Fatal` or
a panic.  An `Operation` is what a plan operation means, a function on lists of rows, and `encode` is the
plan operation for it.  `translatePlan_spec` says that the iterator of a plan serves the rows that the
operations make of the table.
-/

namespace Csapp.Query

open Csapp.Lib

/-! ## Translation -/

abbrev PROJECTION : String := "PROJECTION"

abbrev SELECTION : String := "SELECTION"

abbrev SCAN : String := "SCAN"

abbrev LIMIT : String := "LIMIT"

abbrev EQUALS : Text := "EQUALS".toList

structure PlanOperation where
  op : String
  val : List Text

abbrev Plan := List PlanOperation

inductive ExprError
  | wrongNumber
  | notImplemented (text : Text)

def parseBinaryExpr (vals : List Text) : Except ExprError EqualExpression :=
  match vals with
  | [column, op, value] => if op = EQUALS then .ok ⟨column, value⟩ else .error (.notImplemented op)
  | _ => .error .wrongNumber

/-- What `csv.Reader` reads from a file: the first record and the others, which it refuses unless they have
as many fields. -/
structure CsvFile where
  headers : List Text
  records : List (List Text)
  widths : ∀ record ∈ records, record.length = headers.length

/-- The tuple of a record: `headers[idx]` with each value. -/
def recordTuple (headers record : List Text) : Option Tuple :=
  (record.zipIdx.mapM fun p => headers[p.2]?.map fun name => ⟨name, p.1⟩).map Tuple.mk

/-- The file that is opened does not depend on the name. -/
def newFileScan (file : CsvFile) (_filename : Text) : Option Iter :=
  (file.records.mapM (recordTuple file.headers)).map newScanIterator

/-- The `switch` of `translate`. -/
def translateOp (file : CsvFile) (child : Iter) (o : PlanOperation) : Option Iter :=
  if o.op = SCAN then do
    let filename ← o.val[0]?
    newFileScan file filename
  else if o.op = SELECTION then
    match parseBinaryExpr o.val with
    | .error _ => none
    | .ok expr => some (newSelectionIterator child expr)
  else if o.op = LIMIT then do
    let arg ← o.val[0]?
    match atoi arg with
    | .error _ => none
    | .ok i => some (newLimitIterator child i)
  else if o.op = PROJECTION then some (newProjectionIterator child o.val)
  else none

def translate (file : CsvFile) (plan : Plan) : ℕ → Iter → Option Iter
  | 0, child => do
    let o ← plan[0]?
    translateOp file child o
  | idx + 1, child => do
    let o ← plan[idx + 1]?
    let operator ← translateOp file child o
    translate file plan idx operator

def translatePlan (file : CsvFile) (plan : Plan) : Option Iter := translate file plan (plan.length - 1) .nil

/-! ## The language of plans -/

/-- An argument that `strconv.Atoi` accepts. -/
structure IntArg where
  text : Text
  n : ℤ
  parses : atoi text = .ok n

inductive Operation
  | projection (columns : List Text)
  | selection (column value : Text)
  | limit (arg : IntArg)

def Operation.encode : Operation → PlanOperation
  | .projection columns => ⟨PROJECTION, columns⟩
  | .selection column value => ⟨SELECTION, [column, EQUALS, value]⟩
  | .limit arg => ⟨LIMIT, [arg.text]⟩

/-- The plan of the operations, with a scan at its end. -/
def encodePlan (ops : List Operation) (table : Text) : Plan := ops.map Operation.encode ++ [⟨SCAN, [table]⟩]

/-- The operation as a function on lists of rows. -/
def Operation.apply : Operation → List Tuple → List Tuple
  | .projection columns, rows => rows.map fun row => ⟨row.columns.filter fun c => columns.contains c.name⟩
  | .selection column value, rows =>
    rows.filter fun row => decide (∃ c ∈ row.columns, c.name = column ∧ c.value = value)
  | .limit arg, rows => rows.take (max arg.n 0).toNat

/-- The rows of the table. -/
def CsvFile.rows (file : CsvFile) : List Tuple :=
  file.records.map fun record => ⟨List.zipWith Column.mk file.headers record⟩

/-- From the last operation to the first. -/
def applyAll (ops : List Operation) (rows : List Tuple) : List Tuple := ops.foldr Operation.apply rows

/-! ## Correctness -/

theorem recordTuple_eq {headers record : List Text} (h : record.length = headers.length) :
    recordTuple headers record = some ⟨List.zipWith Column.mk headers record⟩ := by
  -- from any index on
  have hfrom : ∀ (record : List Text) (n : ℕ), n + record.length = headers.length →
      ((record.zipIdx n).mapM fun p => headers[p.2]?.map fun name => Column.mk name p.1) =
        some (List.zipWith Column.mk (headers.drop n) record) := by
    intro record
    induction record with
    | nil =>
      intro n _
      rw [List.zipWith_nil_right]
      rfl
    | cons val record ih =>
      intro n hn
      have hlt : n < headers.length := by
        rw [List.length_cons] at hn
        omega
      have hrest := ih (n + 1) (by rw [List.length_cons] at hn; omega)
      rw [List.zipIdx_cons, List.mapM_cons, List.drop_eq_getElem_cons hlt, List.zipWith_cons_cons]
      simp only [List.getElem?_eq_getElem hlt, Option.map_some, hrest, bind, Option.bind, pure]
  rw [recordTuple, hfrom record 0 (by rw [Nat.zero_add, h]), List.drop_zero]
  rfl

theorem newFileScan_eq (file : CsvFile) (filename : Text) :
    newFileScan file filename = some (.scan file.rows 0) := by
  have hall : ∀ records : List (List Text), (∀ record ∈ records, record.length = file.headers.length) →
      records.mapM (recordTuple file.headers) =
        some (records.map fun record => ⟨List.zipWith Column.mk file.headers record⟩) := by
    intro records
    induction records with
    | nil =>
      intro _
      rfl
    | cons record records ih =>
      intro h
      rw [List.mapM_cons, recordTuple_eq (h record List.mem_cons_self),
        ih fun r hr => h r (List.mem_cons_of_mem record hr)]
      rfl
  rw [newFileScan, hall file.records file.widths]
  rfl

/-- An operation puts an iterator on top that acts on the rows as the operation does. -/
theorem translateOp_encode (file : CsvFile) (child : Iter) (o : Operation) : ∃ it,
    translateOp file child o.encode = some it ∧ (child.Complete → it.Complete) ∧ it.rows = o.apply child.rows := by
  cases o with
  | projection columns =>
    refine ⟨newProjectionIterator child columns, ?_, id, rfl⟩
    simp [translateOp, Operation.encode, PROJECTION, SCAN, SELECTION, LIMIT]
  | selection column value =>
    refine ⟨newSelectionIterator child ⟨column, value⟩, ?_, id, ?_⟩
    · simp [translateOp, Operation.encode, parseBinaryExpr, SCAN, SELECTION]
    · apply List.filter_congr
      intro row _
      rw [EqualExpression.execute, Bool.eq_iff_iff]
      simp
  | limit arg =>
    refine ⟨newLimitIterator child arg.n, ?_, id, ?_⟩
    · simp [translateOp, Operation.encode, arg.parses, SCAN, SELECTION, LIMIT]
    · have hn : (arg.n - 0).toNat = (max arg.n 0).toNat := by omega
      show child.rows.take _ = child.rows.take _
      rw [hn]

/-- What is left of `translate` once `k` operations are left. -/
def translateRest (file : CsvFile) (plan : Plan) (k : ℕ) (child : Iter) : Option Iter :=
  match k with
  | 0 => some child
  | k + 1 => translate file plan k child

theorem translate_eq (file : CsvFile) (plan : Plan) (k : ℕ) (child : Iter) {o : PlanOperation}
    (h : plan[k]? = some o) :
    translate file plan k child = (translateOp file child o).bind (translateRest file plan k) := by
  cases k with
  | zero =>
    rw [translate, h]
    show translateOp file child o = _
    cases translateOp file child o <;> rfl
  | succ k =>
    rw [translate, h]
    rfl

/-- The operations in front of what is translated already. -/
theorem translateRest_encode (file : CsvFile) (ops : List Operation) (rest : Plan) (child : Iter)
    (hc : child.Complete) : ∃ it, translateRest file (ops.map Operation.encode ++ rest) ops.length child = some it ∧
      it.Complete ∧ it.rows = applyAll ops child.rows := by
  induction ops using List.reverseRecOn generalizing rest child with
  | nil => exact ⟨child, rfl, hc, rfl⟩
  | append_singleton ops o ih =>
    obtain ⟨it, h1, h2, h3⟩ := translateOp_encode file child o
    obtain ⟨it', h4, h5, h6⟩ := ih (o.encode :: rest) it (h2 hc)
    refine ⟨it', ?_, h5, ?_⟩
    · have hplan : (ops ++ [o]).map Operation.encode ++ rest = ops.map Operation.encode ++ o.encode :: rest := by simp
      have hget : (ops.map Operation.encode ++ o.encode :: rest)[ops.length]? = some o.encode := by simp
      rw [hplan, List.length_append, List.length_singleton]
      show translate file _ ops.length child = _
      rw [translate_eq file _ _ _ hget, h1]
      exact h4
    · rw [h6, h3, applyAll, applyAll, List.foldr_append]
      rfl

/-- **Plans mean what they say**: any number of calls of `Next` gives the rows that the operations make of the
table, from the last operation to the first, and then `ERROR_EOF` again and again. -/
theorem translatePlan_spec (file : CsvFile) (ops : List Operation) (table : Text) : ∃ it bound,
    translatePlan file (encodePlan ops table) = some it ∧ ∀ fuel, bound ≤ fuel → ∀ k,
      pulls (Iter.next fuel) k it =
        some ((List.range k).map fun i => result (applyAll ops file.rows)[i]?) := by
  obtain ⟨it, h1, h2, h3⟩ := translateRest_encode file ops [⟨SCAN, [table]⟩] (.scan file.rows 0) trivial
  refine ⟨it, it.cost, ?_, fun fuel hf k => ?_⟩
  · have hlen : (encodePlan ops table).length - 1 = ops.length := by simp [encodePlan]
    have hget : (encodePlan ops table)[ops.length]? = some ⟨SCAN, [table]⟩ := by simp [encodePlan]
    have hscan : translateOp file .nil ⟨SCAN, [table]⟩ = some (.scan file.rows 0) := by
      rw [translateOp, if_pos rfl]
      exact newFileScan_eq file table
    rw [translatePlan, hlen, translate_eq file _ _ _ hget, hscan]
    exact h1
  · rw [(serves_rows fuel).pulls_eq ⟨h2, hf⟩, h3]
    rfl

end Csapp.Query
