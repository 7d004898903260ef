import NestedResources.Proofs.Filter.Grammar

/-!
# Filters written out as documents

A filter can be written out if its comparisons are with scalars and none of their paths looks like a
token. Reading a filter that is written out gives the filter back, and every filter that is read from a
document can be written out (`Filter.reads_back`).
-/
namespace NestedResources

/-- A comparison with a scalar whose path does not look like a token. -/
def Comparison.isWritable (c : Comparison) : Bool := c.value.isScalar && !Structured.isToken c.path

/-- Whether every comparison of a filter can be written out. -/
def Filter.isWritable (f : Filter) : Bool := f.leaves.all Comparison.isWritable

namespace Structured

/-- Whether all comparisons of filters can be written out. -/
abbrev AllWritable (fs : List Filter) : Prop := (Filter.leavesAll fs).all Comparison.isWritable = true

/-! ## Reading what is written -/

theorem ofToken?_token (o : Operator) : Operator.ofToken? o.token = some o := by
  cases o <;> rfl

theorem isOperatorMap_token (o : Operator) (value : Json) : isOperatorMap [(o.token, value)] = true := by
  have htoken : isToken o.token = true ∧ isCombinator o.token = false := by
    cases o <;> decide
  simp [isOperatorMap, htoken]

theorem filter?_combinator (key : String) (combinator : Combinator) {items : List Json}
    {fs : List Filter} (hkey : Combinator.ofKey? key = some combinator)
    (h : scopes? "" items = some fs) : filter? (.obj [(key, .arr items)]) = some (combinator.build fs) := by
  simp [filter?, members?, member?, hkey, h, cons?, conjunction?, conjunction]

theorem filter?_comparison {c : Comparison} (h : c.isWritable = true) :
    filter? (.obj [(c.path, .obj [(c.operator.token, c.value)])]) = some (.compare c) := by
  rw [Comparison.isWritable, Bool.and_eq_true, Bool.not_eq_true'] at h
  obtain ⟨hscalar, hpath⟩ := h
  have hnot : c.path ≠ "$not" := by
    rintro he
    rw [he] at hpath
    cases hpath
  simp [filter?, members?, member?, hnot, hpath, isOperatorMap_token, comparisons?, comparison?,
    ofToken?_token, hscalar, cons?, conjunction?, conjunction]

theorem scopes?_toStructured (f : Filter) (items : List Json) :
    scopes? "" (f.toStructured :: items) = cons? (filter? f.toStructured) (scopes? "" items) := by
  cases f <;> rfl

mutual

/-- A filter that can be written out is what the grammar has for the document. -/
theorem filter?_toStructured : ∀ f : Filter, f.isWritable = true → filter? f.toStructured = some f
  | .and children, h => filter?_combinator "$and" .and rfl (scopes?_toStructuredAll children h)
  | .or children, h => filter?_combinator "$or" .or rfl (scopes?_toStructuredAll children h)
  | .not children, h => filter?_combinator "$not" .not rfl (scopes?_toStructuredAll children h)
  | .compare c, h => filter?_comparison (by simpa [Filter.isWritable, Filter.leaves] using h)

theorem scopes?_toStructuredAll : ∀ fs : List Filter, AllWritable fs →
    scopes? "" (Filter.toStructuredAll fs) = some fs
  | [], _ => rfl
  | f :: fs, h => by
    rw [AllWritable, Filter.leavesAll, List.all_append, Bool.and_eq_true] at h
    rw [Filter.toStructuredAll, scopes?_toStructured, filter?_toStructured f h.1,
      scopes?_toStructuredAll fs h.2]
    rfl

end

/-! ## Writing what is read -/

/-- A path starts like its scope, or like its key if the scope has no path. -/
theorem isToken_append {base key : String} (hbase : isToken base = false) (hkey : isToken key = false) :
    isToken (base ++ key) = false := by
  unfold isToken at *
  rw [String.toList_append]
  cases h : base.toList with
  | nil => rwa [List.nil_append]
  | cons c cs => rwa [h] at hbase

theorem isWritable_conjunction {fs : List Filter} (h : AllWritable fs) :
    (conjunction fs).isWritable = true := by
  match fs with
  | [] => rfl
  | [f] => simpa [conjunction, Filter.isWritable, Filter.leavesAll] using h
  | f :: g :: fs => exact h

theorem isWritable_of_conjunction? {answer : Option (List Filter)} {f : Filter}
    (h : answer.bind conjunction? = some f) (hall : ∀ fs, answer = some fs → AllWritable fs) :
    f.isWritable = true := by
  obtain ⟨fs, hfs, h⟩ := Option.bind_eq_some_iff.1 h
  cases fs with
  | nil => cases h
  | cons g gs =>
    cases h
    exact isWritable_conjunction (hall _ hfs)

theorem allWritable_cons? {first : Option Filter} {others : Option (List Filter)} {fs : List Filter}
    (h : cons? first others = some fs) (hfirst : ∀ f, first = some f → f.isWritable = true)
    (hothers : ∀ gs, others = some gs → AllWritable gs) : AllWritable fs := by
  obtain ⟨f, gs, hf, hgs, rfl⟩ := cons?_eq_some.1 h
  rw [AllWritable, Filter.leavesAll, List.all_append, Bool.and_eq_true]
  exact ⟨hfirst f hf, hothers gs hgs⟩

theorem isWritable_compare {path : String} (hpath : isToken path = false) {value : Json}
    (hvalue : value.isScalar = true) (operator : Operator) :
    (Filter.compare ⟨path, operator, value⟩).isWritable = true := by
  simp [Filter.isWritable, Filter.leaves, Comparison.isWritable, hpath, hvalue]

theorem allWritable_comparisons? {path : String} (hpath : isToken path = false)
    {members : List (String × Json)} {fs : List Filter} (h : comparisons? path members = some fs) :
    AllWritable fs := by
  induction members generalizing fs with
  | nil =>
    cases h
    rfl
  | cons e rest ih =>
    refine allWritable_cons? h (fun f hf => ?_) fun gs hgs => ih hgs
    obtain ⟨operator, -, hscalar, rfl⟩ := comparison?_eq_some.1 hf
    exact isWritable_compare hpath hscalar operator

theorem isWritable_build {fs : List Filter} (combinator : Combinator) (h : AllWritable fs) :
    (combinator.build fs).isWritable = true := by
  cases combinator <;> exact h

/-- A literal under a path. -/
theorem isWritable_literal {base key : String} (hbase : isToken base = false) {value : Json}
    (hvalue : value.isScalar = true) {f : Filter}
    (h : (if isToken key then none else some (Filter.compare ⟨base ++ key, .eq, value⟩)) = some f) :
    f.isWritable = true := by
  split at h
  · cases h
  · rename_i hkey
    cases h
    exact isWritable_compare (isToken_append hbase (Bool.eq_false_iff.2 hkey)) hvalue .eq

mutual

theorem isWritable_member? {base : String} (hbase : isToken base = false) (key : String) :
    ∀ (value : Json) (f : Filter), member? base key value = some f → f.isWritable = true
  | .null, _, h => isWritable_literal hbase rfl h
  | .bool _, _, h => isWritable_literal hbase rfl h
  | .num _, _, h => isWritable_literal hbase rfl h
  | .str _, _, h => isWritable_literal hbase rfl h
  | .arr items, f, h => by
    rw [member?] at h
    split at h
    · obtain ⟨fs, hfs, rfl⟩ := Option.map_eq_some_iff.1 h
      exact isWritable_build _ (allWritable_scopes? hbase items fs hfs)
    · cases h
  | .obj members, f, h => by
    rw [member?] at h
    split at h
    · obtain ⟨g, hg, rfl⟩ := Option.map_eq_some_iff.1 h
      have hwritable := isWritable_of_conjunction? hg fun fs hfs => allWritable_members? hbase members fs hfs
      have hall : AllWritable [g] := by
        simpa [AllWritable, Filter.leavesAll, Filter.isWritable] using hwritable
      exact isWritable_build .not hall
    · split at h
      · cases h
      · rename_i hkey
        have hpath := isToken_append hbase (Bool.eq_false_iff.2 hkey)
        split at h
        · exact isWritable_of_conjunction? h fun fs hfs => allWritable_comparisons? hpath hfs
        · split at h
          · exact isWritable_of_conjunction? h fun fs hfs =>
              allWritable_members? (isToken_append hpath rfl) members fs hfs
          · cases h

theorem allWritable_members? {base : String} (hbase : isToken base = false) :
    ∀ (members : List (String × Json)) (fs : List Filter), members? base members = some fs → AllWritable fs
  | [], _, h => by
    cases h
    rfl
  | (key, value) :: rest, _, h =>
    allWritable_cons? h (isWritable_member? hbase key value) (allWritable_members? hbase rest)

theorem allWritable_scopes? {base : String} (hbase : isToken base = false) :
    ∀ (items : List Json) (fs : List Filter), scopes? base items = some fs → AllWritable fs
  | [], _, h => by
    cases h
    rfl
  | .obj members :: rest, _, h =>
    allWritable_cons? h
      (fun _ hf => isWritable_of_conjunction? hf (allWritable_members? hbase members))
      (allWritable_scopes? hbase rest)
  | .null :: _, _, h => nomatch h
  | .bool _ :: _, _, h => nomatch h
  | .num _ :: _, _, h => nomatch h
  | .str _ :: _, _, h => nomatch h
  | .arr _ :: _, _, h => nomatch h

end

/-- Every filter of the grammar can be written out. -/
theorem isWritable_of_filter? {v : Json} {f : Filter} (h : filter? v = some f) : f.isWritable = true := by
  cases v with
  | obj members => exact isWritable_of_conjunction? h (allWritable_members? rfl members)
  | _ => cases h

end Structured

namespace Filter

open Structured

theorem ofStructured_toStructured (parameter : String) {limit : Nat} {f : Filter}
    (hf : f.isWritable = true) (hlimit : f.nodeCount ≤ limit) :
    ofStructured parameter limit f.toStructured = .ok f :=
  ofStructured_eq_ok.2 ⟨filter?_toStructured f hf, hlimit⟩

/-- A filter that can be written out is read back from its document, within any limit that allows its
nodes. Whatever is read from any document can be written out, so it is read back as well. -/
theorem reads_back (parameter : String) (f : Filter) :
    (f.isWritable = true → ∀ limit, f.nodeCount ≤ limit →
      ofStructured parameter limit f.toStructured = .ok f) ∧
    ∀ source within v, ofStructured source within v = .ok f → f.isWritable = true ∧
      ∀ limit, f.nodeCount ≤ limit → ofStructured parameter limit f.toStructured = .ok f := by
  refine ⟨fun hf limit hlimit => ofStructured_toStructured parameter hf hlimit, fun source within v hv => ?_⟩
  have hf := isWritable_of_filter? (ofStructured_eq_ok.1 hv).1
  exact ⟨hf, fun limit hlimit => ofStructured_toStructured parameter hf hlimit⟩

/-- Negations, empty conjunctions and comparisons with null are read back, also those of a scope. -/
theorem reads_back_negation :
    let empty : Filter := .and []
    let noTitle : Filter := .compare ⟨"album.title", .ne, .null⟩
    let v : Json := .obj [("$not", .arr [.obj [("$and", .arr [])],
      .obj [("album", .obj [("title", .obj [("$ne", .null)])])]])]
    (Filter.not [empty, noTitle]).isWritable = true ∧
      ofStructured "query" 4 (Filter.not [empty, noTitle]).toStructured = .ok (.not [empty, noTitle]) ∧
      ofStructured "filter" 3 v = .ok (.not [empty, noTitle]) ∧
      ofStructured "query" 3 (Filter.not [empty, noTitle]).toStructured = .ok (.not [empty, noTitle]) := by
  have hread := reads_back "query" (.not [.and [], .compare ⟨"album.title", .ne, .null⟩])
  have hv : ofStructured "filter" 3 (.obj [("$not", .arr [.obj [("$and", .arr [])],
      .obj [("album", .obj [("title", .obj [("$ne", .null)])])]])]) =
        .ok (.not [.and [], .compare ⟨"album.title", .ne, .null⟩]) :=
    ofStructured_eq_ok.2 ⟨rfl, by decide⟩
  exact ⟨rfl, hread.1 rfl 4 (by decide), hv, (hread.2 _ _ _ hv).2 3 (by decide)⟩

end Filter

end NestedResources
