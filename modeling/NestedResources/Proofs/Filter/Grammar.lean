import NestedResources.Filter.Structured
import NestedResources.Proofs.Except

/-!
# The grammar of structured filters

What a document stands for is told by recursion on the document, without tasks and without a budget
(`Structured.filter?`). Reading with a stack of tasks gives just these filters, as long as they have no
more nodes than allowed (`Filter.ofStructured_accepts_grammar`).
-/
namespace NestedResources

namespace Structured

/-! ## The grammar -/

/-- A list that stands for something if all of it does. -/
def cons? : Option Filter → Option (List Filter) → Option (List Filter)
  | some first, some others => some (first :: others)
  | _, _ => none

/-- One comparison of a path: a known operator and a scalar. -/
def comparison? (path token : String) (value : Json) : Option Filter :=
  match Operator.ofToken? token with
  | some operator => if value.isScalar then some (.compare ⟨path, operator, value⟩) else none
  | none => none

def comparisons? (path : String) : List (String × Json) → Option (List Filter)
  | [] => some []
  | (token, value) :: rest => cons? (comparison? path token value) (comparisons? path rest)

/-- At least one filter, combined if there are several. -/
def conjunction? : List Filter → Option Filter
  | [] => none
  | filters => some (conjunction filters)

mutual

/-- The filter of one member of a scope. -/
def member? (base key : String) : Json → Option Filter
  | .arr items =>
    match Combinator.ofKey? key with
    | some combinator => (scopes? base items).map combinator.build
    | none => none
  | .obj members =>
    if key = "$not" then ((members? base members).bind conjunction?).map fun f => .not [f]
    else if isToken key then none
    else if isOperatorMap members then (comparisons? (base ++ key) members).bind conjunction?
    else if isScope members then (members? (base ++ key ++ ".") members).bind conjunction?
    else none
  | value => if isToken key then none else some (.compare ⟨base ++ key, .eq, value⟩)

/-- The filters of the members of a scope, in their order. -/
def members? (base : String) : List (String × Json) → Option (List Filter)
  | [] => some []
  | (key, value) :: rest => cons? (member? base key value) (members? base rest)

/-- The filters of the scopes in an array, in their order. -/
def scopes? (base : String) : List Json → Option (List Filter)
  | [] => some []
  | .obj members :: rest => cons? ((members? base members).bind conjunction?) (scopes? base rest)
  | _ :: _ => none

end

/-- The filter that a document stands for. -/
def filter? : Json → Option Filter
  | .obj members => (members? "" members).bind conjunction?
  | _ => none

theorem cons?_eq_some {first : Option Filter} {others : Option (List Filter)} {fs : List Filter} :
    cons? first others = some fs ↔ ∃ f gs, first = some f ∧ others = some gs ∧ f :: gs = fs := by
  cases first with
  | none => simp [cons?]
  | some f => cases others <;> simp [cons?]

theorem comparison?_eq_some {path token : String} {value : Json} {f : Filter} :
    comparison? path token value = some f ↔ ∃ operator, Operator.ofToken? token = some operator ∧
      value.isScalar = true ∧ .compare ⟨path, operator, value⟩ = f := by
  unfold comparison?
  cases Operator.ofToken? token <;> simp

/-! ## Counting -/

/-- Goes on unless there are more nodes than allowed. -/
def Site.upTo {α : Type} (site : Site) (nodes : Nat) (x : Except Error α) : Except Error α :=
  if nodes ≤ site.limit then x else .error (.tooComplex site.limit)

/-- Not the error for filters that are left over. -/
def Balanced (e : Error) : Prop := ∀ parameter, e ≠ .malformedQuery parameter .unbalanced

section

variable {α β : Type} {site : Site} {m n : Nat}

theorem upTo_of_le (h : n ≤ site.limit) (x : Except Error α) : site.upTo n x = x := if_pos h

theorem spend_bind (n : Nat) (f : Nat → Except Error α) :
    site.spend n >>= f = site.upTo (n + 1) (f (n + 1)) := by
  unfold Site.spend Site.upTo
  by_cases h : n < site.limit
  · rw [if_pos h, if_pos (Nat.succ_le_of_lt h)]
    rfl
  · rw [if_neg h, if_neg (mt Nat.lt_of_succ_le h)]
    rfl

theorem upTo_bind (x : Except Error α) (f : α → Except Error β) :
    site.upTo n x >>= f = site.upTo n (x >>= f) := by
  unfold Site.upTo
  split <;> rfl

theorem upTo_upTo (h : m ≤ n) (x : Except Error α) : site.upTo m (site.upTo n x) = site.upTo n x := by
  unfold Site.upTo
  by_cases hn : n ≤ site.limit
  · rw [if_pos hn, if_pos (Nat.le_trans h hn)]
  · rw [if_neg hn]
    split <;> rfl

/-- What goes on within the limit may be looked at there only. -/
theorem upTo_congr {x y : Except Error α} (h : n ≤ site.limit → x = y) : site.upTo n x = site.upTo n y := by
  unfold Site.upTo
  split
  · rename_i hn
    exact h hn
  · rfl

theorem balanced_tooComplex (limit : Nat) : Balanced (.tooComplex limit) := fun _ h => by cases h

/-- A computation that fails after counting fails with a balanced error all the same. -/
theorem exists_upTo_error {x : Except Error α} (h : n ≤ site.limit → ∃ e, x = .error e ∧ Balanced e) :
    ∃ e, site.upTo n x = .error e ∧ Balanced e := by
  unfold Site.upTo
  split
  · rename_i hn
    exact h hn
  · exact ⟨_, rfl, balanced_tooComplex _⟩

end

/-! ## Tasks -/

theorem run_nil (site : Site) (s : State) : run site s [] = .ok s := by
  rw [run]

theorem run_cons (site : Site) (s : State) (t : Task) (tasks : List Task) :
    run site s (t :: tasks) = step site s t >>= fun next => run site next.2 (next.1 ++ tasks) := by
  rw [run]
  split
  · rename_i h
    rw [h]
    rfl
  · rename_i h
    rw [h]
    rfl

/-- Adds filters that are complete, with their nodes. -/
def State.add (s : State) (filters : List Filter) : State :=
  ⟨filters.reverse ++ s.output, s.nodes + Filter.nodeCountAll filters⟩

/-- Whether tasks come to the filters of the grammar, whatever is done before and after, or else fail
where the grammar has none. -/
def Site.Answers (site : Site) (tasks : List Task) : Option (List Filter) → Prop
  | some filters => ∀ s rest, s.nodes ≤ site.limit → run site s (tasks ++ rest) =
      site.upTo (s.add filters).nodes (run site (s.add filters) rest)
  | none => ∀ s rest, s.nodes ≤ site.limit → ∃ e, run site s (tasks ++ rest) = .error e ∧ Balanced e

theorem nodeCountAll_append (fs gs : List Filter) :
    Filter.nodeCountAll (fs ++ gs) = Filter.nodeCountAll fs + Filter.nodeCountAll gs := by
  induction fs with
  | nil => simp [Filter.nodeCountAll]
  | cons f fs ih => simp [Filter.nodeCountAll, ih, Nat.add_assoc]

theorem nodeCount_build (combinator : Combinator) (fs : List Filter) :
    (combinator.build fs).nodeCount = Filter.nodeCountAll fs + 1 := by
  cases combinator <;> rfl

theorem State.add_add (s : State) (fs gs : List Filter) : (s.add fs).add gs = s.add (fs ++ gs) := by
  simp [State.add, nodeCountAll_append, Nat.add_assoc]

section

variable {site : Site} {t : Task} {tasks more : List Task}

theorem answers_nil : site.Answers [] (some []) := fun _ _ hs => (upTo_of_le hs _).symm

/-- Tasks one after the other. -/
theorem Site.Answers.cons {first : Option Filter} {others : Option (List Filter)}
    (h : site.Answers [t] (first.map fun f => [f])) (k : site.Answers tasks others) :
    site.Answers (t :: tasks) (cons? first others) := by
  cases first with
  | none => exact fun s rest hs => h s (tasks ++ rest) hs
  | some f =>
    -- what comes next starts where the first task has left off, if that is within the limit
    have hfirst : ∀ s rest, s.nodes ≤ site.limit → run site s (t :: tasks ++ rest) =
        site.upTo (s.add [f]).nodes (run site (s.add [f]) (tasks ++ rest)) :=
      fun s rest hs => h s (tasks ++ rest) hs
    cases others with
    | none =>
      intro s rest hs
      rw [hfirst s rest hs]
      exact exists_upTo_error fun hlimit => k (s.add [f]) rest hlimit
    | some gs =>
      intro s rest hs
      rw [hfirst s rest hs, upTo_congr fun hlimit => k (s.add [f]) rest hlimit, State.add_add,
        upTo_upTo (by simp [State.add, Filter.nodeCountAll])]
      rfl

/-- A task that only leaves others to be done. -/
theorem Site.Answers.pass {answer : Option (List Filter)} (h : site.Answers tasks answer)
    (hstep : ∀ s, step site s t = .ok (tasks, s)) : site.Answers [t] answer := by
  have hrun : ∀ s rest, run site s ([t] ++ rest) = run site s (tasks ++ rest) := by
    intro s rest
    rw [List.singleton_append, run_cons, hstep]
    rfl
  cases answer with
  | none => exact fun s rest hs => hrun s rest ▸ h s rest hs
  | some fs => exact fun s rest hs => (hrun s rest).trans (h s rest hs)

/-- A task that is given up. -/
theorem answers_none (hstep : ∀ s, ∃ e, step site s t = .error e ∧ Balanced e) : site.Answers [t] none := by
  intro s rest _
  obtain ⟨e, he, hbalanced⟩ := hstep s
  refine ⟨e, ?_, hbalanced⟩
  rw [List.singleton_append, run_cons, he]
  rfl

/-- A task that counts one node and has the filters of others combined. -/
theorem Site.Answers.combine (combinator : Combinator) (arity : Nat) {answer : Option (List Filter)}
    (h : site.Answers tasks answer) (harity : ∀ fs, answer = some fs → fs.length = arity)
    (hstep : ∀ s, step site s t = site.spend s.nodes >>= fun nodes =>
      pure (tasks ++ [.build combinator arity], { s with nodes })) :
    site.Answers [t] (answer.map fun fs => [combinator.build fs]) := by
  have hrun : ∀ s rest, run site s ([t] ++ rest) = site.upTo (s.nodes + 1)
      (run site ⟨s.output, s.nodes + 1⟩ (tasks ++ .build combinator arity :: rest)) := by
    intro s rest
    rw [List.singleton_append, run_cons, hstep, spend_bind, upTo_bind]
    simp only [pure, Except.pure, bind, Except.bind, List.append_assoc, List.singleton_append]
  cases answer with
  | none =>
    intro s rest _
    rw [hrun]
    exact exists_upTo_error fun hlimit => h ⟨s.output, s.nodes + 1⟩ _ hlimit
  | some fs =>
    have hlength := harity fs rfl
    intro s rest hs
    rw [hrun, upTo_congr fun hlimit => h ⟨s.output, s.nodes + 1⟩ _ hlimit, upTo_upTo (by simp [State.add])]
    -- the filters to combine are on top, the last one first
    have hbuild : (State.add ⟨s.output, s.nodes + 1⟩ fs).combine combinator arity =
        s.add [combinator.build fs] := by
      simp only [State.add, State.combine, Filter.nodeCountAll, nodeCount_build, State.mk.injEq]
      refine ⟨by simp [← hlength], by omega⟩
    have hnodes : (State.add ⟨s.output, s.nodes + 1⟩ fs).nodes = (s.add [combinator.build fs]).nodes := by
      rw [← hbuild]
      rfl
    rw [run_cons]
    change site.upTo _ (run site ((State.add ⟨s.output, s.nodes + 1⟩ fs).combine combinator arity) rest) = _
    rw [hbuild, hnodes]

/-! ## Paths -/

/-- Whether counting and reading comes to what the grammar has, or fails where it has nothing. -/
def Site.Gives (site : Site) (size : α → Nat) (x : Nat → Except Error (α × Nat)) : Option α → Prop
  | some a => ∀ n, n ≤ site.limit → x n = site.upTo (n + size a) (.ok (a, n + size a))
  | none => ∀ n, ∃ e, x n = .error e ∧ Balanced e

/-- A task that reads a filter at once. -/
theorem Site.Gives.answers {x : Nat → Except Error (Filter × Nat)} {answer : Option Filter}
    (h : site.Gives Filter.nodeCount x answer)
    (hstep : ∀ s, step site s t = (x s.nodes).map fun done => ([], s.finish done)) :
    site.Answers [t] (answer.map fun f => [f]) := by
  cases answer with
  | none =>
    refine answers_none fun s => ?_
    obtain ⟨e, he, hbalanced⟩ := h s.nodes
    exact ⟨e, by rw [hstep, he]; rfl, hbalanced⟩
  | some f =>
    intro s rest hs
    rw [List.singleton_append, run_cons, hstep, h s.nodes hs]
    have hadd : s.add [f] = s.finish (f, s.nodes + f.nodeCount) := by
      simp [State.add, State.finish, Filter.nodeCountAll]
    unfold Site.upTo
    rw [hadd, State.finish]
    split <;> rfl

/-- What is made of a result without more nodes. -/
theorem Site.Gives.map {size : α → Nat} {x : Nat → Except Error (α × Nat)} {answer : Option α}
    (h : site.Gives size x answer) (size' : β → Nat) {f : α → β}
    (hsize : ∀ a, answer = some a → size' (f a) = size a) :
    site.Gives size' (fun n => (x n).map fun done => (f done.1, done.2)) (answer.map f) := by
  cases answer with
  | none =>
    intro n
    obtain ⟨e, he, hbalanced⟩ := h n
    exact ⟨e, congrArg (Except.map _) he, hbalanced⟩
  | some a =>
    intro n hn
    beta_reduce
    rw [h n hn, hsize a rfl]
    unfold Site.upTo
    split <;> rfl

/-- What is made of a result with one node more, which is counted first. -/
theorem Site.Gives.spend {size : α → Nat} {x : Nat → Except Error (α × Nat)} {answer : Option α}
    (h : site.Gives size x answer) (size' : β → Nat) {f : α → β}
    (hsize : ∀ a, answer = some a → size' (f a) = size a + 1) :
    site.Gives size' (fun n => site.spend n >>= fun n => (x n).map fun done => (f done.1, done.2))
      (answer.map f) := by
  have hmap := h.map (fun b => size' b - 1) (f := f) fun a ha => by rw [hsize a ha]; rfl
  cases answer with
  | none =>
    intro n
    beta_reduce
    rw [spend_bind]
    exact exists_upTo_error fun _ => hmap (n + 1)
  | some a =>
    intro n hn
    beta_reduce
    rw [spend_bind, upTo_congr fun hlimit => hmap (n + 1) hlimit, upTo_upTo (Nat.le_add_right _ _)]
    simp only [hsize a rfl, Nat.add_sub_cancel, Nat.add_right_comm n 1, ← Nat.add_assoc n]

theorem gives_literal (site : Site) (path : String) {value : Json} (h : value.isScalar = true) :
    site.Gives Filter.nodeCount (literal site path value) (some (.compare ⟨path, .eq, value⟩)) := by
  intro n _
  unfold literal leaf
  rw [if_pos h]
  exact spend_bind n _

theorem gives_comparisons (site : Site) (path : String) (members : List (String × Json)) :
    site.Gives Filter.nodeCountAll (comparisons site path members) (comparisons? path members) := by
  induction members with
  | nil => exact fun n hn => (upTo_of_le hn _).symm
  | cons e rest ih =>
    obtain ⟨token, value⟩ := e
    change site.Gives _ (fun n => comparisons site path ((token, value) :: rest) n) _
    unfold comparisons comparisons? comparison?
    cases Operator.ofToken? token with
    | none => exact fun n => ⟨_, rfl, fun _ h => by cases h⟩
    | some operator =>
      unfold leaf
      by_cases hscalar : value.isScalar = true
      · dsimp only
        simp only [if_pos hscalar]
        have hrest := ih.spend Filter.nodeCountAll
          (f := (Filter.compare ⟨path, operator, value⟩ :: ·)) fun fs _ => Nat.add_comm _ _
        cases hanswer : comparisons? path rest <;> rw [hanswer] at hrest <;> exact hrest
      · dsimp only
        simp only [if_neg hscalar]
        exact fun n => ⟨_, rfl, fun _ h => by cases h⟩

theorem nodeCount_conjunction {fs : List Filter} (h : fs ≠ []) :
    (conjunction fs).nodeCount = Filter.nodeCountAll fs + if 1 < fs.length then 1 else 0 := by
  match fs, h with
  | [f], _ => simp [conjunction, Filter.nodeCountAll]
  | f :: g :: fs, _ => simp [conjunction, Filter.nodeCount]

theorem length_comparisons? {path : String} {members : List (String × Json)} {fs : List Filter}
    (h : comparisons? path members = some fs) : fs.length = members.length := by
  induction members generalizing fs with
  | nil =>
    cases h
    rfl
  | cons e rest ih =>
    obtain ⟨_, gs, -, hgs, rfl⟩ := cons?_eq_some.1 h
    rw [List.length_cons, List.length_cons, ih hgs]

theorem bind_conjunction? {answer : Option (List Filter)} {n : Nat} (hn : n ≠ 0)
    (h : ∀ fs, answer = some fs → fs.length = n) : answer.bind conjunction? = answer.map conjunction := by
  cases answer with
  | none => rfl
  | some fs =>
    cases fs with
    | nil => exact absurd (h [] rfl) hn.symm
    | cons f fs => rfl

theorem gives_operatorMap (site : Site) (path : String) {members : List (String × Json)}
    (hmembers : members ≠ []) : site.Gives Filter.nodeCount (operatorMap site path members)
      ((comparisons? path members).bind conjunction?) := by
  have hcount : ∀ fs, comparisons? path members = some fs → (conjunction fs).nodeCount =
      Filter.nodeCountAll fs + if 1 < members.length then 1 else 0 := by
    intro fs hfs
    have hlength := length_comparisons? hfs
    rw [← hlength]
    refine nodeCount_conjunction ?_
    rintro rfl
    exact hmembers (List.length_eq_zero_iff.1 hlength.symm)
  rw [bind_conjunction? (mt List.length_eq_zero_iff.1 hmembers) fun fs hfs => length_comparisons? hfs]
  unfold operatorMap
  by_cases hseveral : 1 < members.length
  · simp only [if_pos hseveral] at hcount ⊢
    exact (gives_comparisons site path members).spend _ hcount
  · simp only [if_neg hseveral] at hcount ⊢
    exact (gives_comparisons site path members).map _ hcount

/-! ## Scopes and members -/

theorem length_members? {base : String} {members : List (String × Json)} {fs : List Filter}
    (h : members? base members = some fs) : fs.length = members.length := by
  induction members generalizing fs with
  | nil =>
    cases h
    rfl
  | cons e rest ih =>
    obtain ⟨_, gs, -, hgs, rfl⟩ := cons?_eq_some.1 h
    rw [List.length_cons, List.length_cons, ih hgs]

theorem length_scopes? {base : String} {items : List Json} {fs : List Filter}
    (h : scopes? base items = some fs) : fs.length = items.length := by
  induction items generalizing fs with
  | nil =>
    cases h
    rfl
  | cons item rest ih =>
    cases item with
    | obj members =>
      obtain ⟨_, gs, -, hgs, rfl⟩ := cons?_eq_some.1 h
      rw [List.length_cons, List.length_cons, ih hgs]
    | _ => cases h

theorem answers_scope {base : String} {members : List (String × Json)}
    (h : site.Answers (members.map fun e => .member base e.1 e.2) (members? base members)) :
    site.Answers [.scope base members] (((members? base members).bind conjunction?).map fun f => [f]) := by
  match members with
  | [] => exact answers_none fun s => ⟨_, rfl, fun _ h => by cases h⟩
  | [e] =>
    have hanswer : ((members? base [e]).bind conjunction?).map (fun f => [f]) = members? base [e] := by
      cases hfs : members? base [e] with
      | none => rfl
      | some fs =>
        obtain ⟨f, rfl⟩ := List.length_eq_one_iff.1 (length_members? hfs)
        rfl
    rw [hanswer]
    exact h.pass fun s => rfl
  | e :: e' :: rest =>
    have hanswer : ((members? base (e :: e' :: rest)).bind conjunction?).map (fun f => [f]) =
        (members? base (e :: e' :: rest)).map fun fs => [Combinator.and.build fs] := by
      cases hfs : members? base (e :: e' :: rest) with
      | none => rfl
      | some fs =>
        have hlength := length_members? hfs
        match fs, hlength with
        | f :: g :: gs, _ => rfl
    rw [hanswer]
    exact h.combine _ _ (fun fs hfs => length_members? hfs) fun s => rfl

theorem isToken_of_ofKey? {key : String} {combinator : Combinator}
    (h : Combinator.ofKey? key = some combinator) : isToken key = true := by
  unfold Combinator.ofKey? at h
  split at h
  · rename_i hkey
    rw [hkey]
    rfl
  · split at h
    · rename_i hkey
      rw [hkey]
      rfl
    · split at h
      · rename_i hkey
        rw [hkey]
        rfl
      · cases h

theorem ofKey?_eq_not {key : String} : Combinator.ofKey? key = some .not ↔ key = "$not" := by
  unfold Combinator.ofKey?
  split
  · rename_i hkey
    simp [hkey]
  · split
    · rename_i hkey
      simp [hkey]
    · simp

theorem balanced_of_ne {parameter : String} {fault : ParameterFault} (h : fault ≠ .unbalanced) :
    Balanced (.malformedQuery parameter fault) := by
  intro _ he
  cases he
  exact h rfl

theorem answers_fault (parameter : String) (fault : ParameterFault) (hfault : fault ≠ .unbalanced)
    (hstep : ∀ s, step site s t = .error (.malformedQuery parameter fault)) : site.Answers [t] none :=
  answers_none fun s => ⟨_, hstep s, balanced_of_ne hfault⟩

/-- A combinator whose value is of no use to it. -/
theorem answers_refused {base key : String} {value : Json} {combinator : Combinator}
    (fault : ParameterFault) (hkey : Combinator.ofKey? key = some combinator)
    (hfault : fault ≠ .unbalanced) (hstep : ∀ s, enterCombinator site base key combinator value s =
        site.refuse fault ∨ enterCombinator site base key combinator value s =
          site.spend s.nodes >>= fun _ => site.refuse fault) :
    site.Answers [.member base key value] none := by
  refine answers_none fun s => ?_
  simp only [step, hkey]
  rcases hstep s with hs | hs
  · exact ⟨_, hs, balanced_of_ne hfault⟩
  · rw [hs, spend_bind]
    exact exists_upTo_error fun _ => ⟨_, rfl, balanced_of_ne hfault⟩

/-- A token that is no combinator. -/
theorem answers_unknown {base key : String} (hkey : Combinator.ofKey? key = none)
    (htoken : isToken key = true) (value : Json) : site.Answers [.member base key value] none := by
  refine answers_fault site.parameter (.unknownOperator key) nofun fun s => ?_
  rw [step, hkey]
  exact if_pos htoken

theorem step_path {base key : String} (hkey : Combinator.ofKey? key = none)
    (htoken : isToken key = false) (value : Json) (s : State) :
    step site s (.member base key value) = enterPath site (base ++ key) value s := by
  simp only [step, hkey, htoken, Bool.false_eq_true, if_false]

/-- A member that is neither an array nor an object. -/
theorem answers_scalar {base key : String} {value : Json} (hvalue : value.isScalar = true) :
    site.Answers [.member base key value] ((if isToken key then none
      else some (Filter.compare ⟨base ++ key, .eq, value⟩)).map fun f => [f]) := by
  cases hkey : Combinator.ofKey? key with
  | some combinator =>
    rw [if_pos (isToken_of_ofKey? hkey)]
    cases combinator with
    | not =>
      refine answers_refused .notObjectOrArray hkey nofun fun s => .inr ?_
      cases value <;> first | rfl | cases hvalue
    | _ =>
      refine answers_refused (.notAnArray key) hkey nofun fun s => .inl ?_
      cases value <;> first | rfl | cases hvalue
  | none =>
    cases htoken : isToken key with
    | true => exact answers_unknown hkey htoken value
    | false =>
      refine (gives_literal site (base ++ key) hvalue).answers fun s => ?_
      rw [step_path hkey htoken]
      cases value <;> first | rfl | cases hvalue

/-- A path with an object: comparison tokens, a scope, or nothing of use. -/
theorem answers_path {base key : String} {members : List (String × Json)}
    (hkey : Combinator.ofKey? key = none) (htoken : isToken key = false)
    (hmembers : site.Answers (members.map fun e => .member (base ++ key ++ ".") e.1 e.2)
      (members? (base ++ key ++ ".") members)) :
    site.Answers [.member base key (.obj members)]
      ((if isOperatorMap members then (comparisons? (base ++ key) members).bind conjunction?
        else if isScope members then (members? (base ++ key ++ ".") members).bind conjunction?
        else none).map fun f => [f]) := by
  by_cases hoperators : isOperatorMap members = true
  · rw [if_pos hoperators]
    have hne : members ≠ [] := by
      rintro rfl
      cases hoperators
    refine (gives_operatorMap site (base ++ key) hne).answers fun s => ?_
    rw [step_path hkey htoken]
    exact if_pos hoperators
  · rw [if_neg hoperators]
    by_cases hscope : isScope members = true
    · rw [if_pos hscope]
      refine (answers_scope hmembers).pass fun s => ?_
      rw [step_path hkey htoken, enterPath, if_neg hoperators, if_pos hscope]
    · rw [if_neg hscope]
      refine answers_none fun s => ?_
      rw [step_path hkey htoken, enterPath, if_neg hoperators, if_neg hscope]
      split
      · exact ⟨_, rfl, balanced_of_ne nofun⟩
      · exact ⟨_, rfl, balanced_of_ne nofun⟩

/-- What the items of an array come to: scopes that are read one after the other, or nothing if one of
them is no scope. -/
structure Site.AnswersItems (site : Site) (base : String) (items : List Json) : Prop where
  scopes : ∀ scopes, items.mapM Json.object? = some scopes →
    site.Answers (scopes.map (Task.scope base)) (scopes? base items)
  refused : items.mapM Json.object? = none → scopes? base items = none

/-- A combinator with an array. -/
theorem answers_array {base key : String} {combinator : Combinator} {items : List Json}
    (hkey : Combinator.ofKey? key = some combinator) (hitems : site.AnswersItems base items) :
    site.Answers [.member base key (.arr items)]
      (((scopes? base items).map combinator.build).map fun f => [f]) := by
  rw [Option.map_map]
  cases hscopes : items.mapM Json.object? with
  | none =>
    have hstep : ∀ s, step site s (.member base key (.arr items)) =
        site.spend s.nodes >>= fun _ => site.refuse (.childNotAnObject key) := by
      intro s
      rw [step, hkey]
      cases combinator <;> (dsimp only [enterCombinator]; rw [hscopes])
    rw [hitems.refused hscopes]
    refine answers_none fun s => ?_
    rw [hstep, spend_bind]
    exact exists_upTo_error fun _ => ⟨_, rfl, balanced_of_ne fun h => by cases h⟩
  | some scopes =>
    have hstep : ∀ s, step site s (.member base key (.arr items)) = site.spend s.nodes >>= fun nodes =>
        pure (scopes.map (Task.scope base) ++ [Task.build combinator items.length], { s with nodes }) := by
      intro s
      rw [step, hkey]
      cases combinator <;> (dsimp only [enterCombinator]; rw [hscopes])
    exact (hitems.scopes scopes hscopes).combine _ _ (fun fs hfs => length_scopes? hfs) hstep

/-- An item that is no scope spoils the array. -/
theorem answersItems_of_notObject {base : String} {item : Json} {items : List Json}
    (hitem : item.object? = none) (hnone : scopes? base (item :: items) = none) :
    site.AnswersItems base (item :: items) := by
  have hitems : (item :: items).mapM Json.object? = none := by
    rw [List.mapM_cons, hitem]
    rfl
  exact ⟨fun scopes h => (nomatch hitems.symm.trans h), fun _ => hnone⟩

mutual

theorem answers_member (site : Site) (base key : String) : ∀ value : Json,
    site.Answers [.member base key value] ((member? base key value).map fun f => [f])
  | .null => answers_scalar rfl
  | .bool _ => answers_scalar rfl
  | .num _ => answers_scalar rfl
  | .str _ => answers_scalar rfl
  | .arr items => by
    have hitems := answers_items site base items
    rw [member?]
    cases hkey : Combinator.ofKey? key with
    | some combinator => exact answers_array hkey hitems
    | none =>
      cases htoken : isToken key with
      | true => exact answers_unknown hkey htoken _
      | false =>
        refine answers_fault (base ++ key) .notAScalar nofun fun s => ?_
        rw [step_path hkey htoken]
        rfl
  | .obj members => by
    have hmembers := answers_members site base members
    have hnested := answers_members site (base ++ key ++ ".") members
    rw [member?]
    cases hkey : Combinator.ofKey? key with
    | none =>
      rw [if_neg fun hnot => by rw [ofKey?_eq_not.2 hnot] at hkey; cases hkey]
      cases htoken : isToken key with
      | true => exact answers_unknown hkey htoken _
      | false => exact answers_path hkey htoken hnested
    | some combinator =>
      by_cases hnot : key = "$not"
      · cases hkey.symm.trans (ofKey?_eq_not.2 hnot)
        have hscope := (answers_scope hmembers).combine (t := .member base key (.obj members))
          .not 1 (fun fs hfs => ?_) fun s => ?_
        · rw [if_pos hnot, Option.map_map]
          rwa [Option.map_map] at hscope
        · obtain ⟨f, -, rfl⟩ := Option.map_eq_some_iff.1 hfs
          rfl
        · rw [step, hkey]
          rfl
      · rw [if_neg hnot, if_pos (isToken_of_ofKey? hkey)]
        refine answers_refused (.notAnArray key) hkey nofun fun s => .inl ?_
        cases combinator with
        | not => exact absurd (ofKey?_eq_not.1 hkey) hnot
        | _ => rfl

theorem answers_members (site : Site) (base : String) : ∀ members : List (String × Json),
    site.Answers (members.map fun e => .member base e.1 e.2) (members? base members)
  | [] => answers_nil
  | (key, value) :: rest => (answers_member site base key value).cons (answers_members site base rest)

theorem answers_items (site : Site) (base : String) : ∀ items : List Json, site.AnswersItems base items
  | [] => ⟨fun scopes h => by cases h; exact answers_nil, nofun⟩
  | .obj members :: rest => by
    have hscope := answers_scope (answers_members site base members)
    have hrest := answers_items site base rest
    refine ⟨fun scopes h => ?_, fun h => ?_⟩
    · rw [List.mapM_cons] at h
      obtain ⟨_, hfirst, h⟩ := Option.bind_eq_some_iff.1 h
      obtain ⟨others, hothers, h⟩ := Option.bind_eq_some_iff.1 h
      cases hfirst
      cases h
      exact hscope.cons (hrest.scopes others hothers)
    · have hnone : rest.mapM Json.object? = none := by
        cases hothers : rest.mapM Json.object? with
        | none => rfl
        | some others => simp [List.mapM_cons, Json.object?, hothers] at h
      rw [scopes?, hrest.refused hnone]
      cases (members? base members).bind conjunction? <;> rfl
  | .null :: _ => answersItems_of_notObject rfl rfl
  | .bool _ :: _ => answersItems_of_notObject rfl rfl
  | .num _ :: _ => answersItems_of_notObject rfl rfl
  | .str _ :: _ => answersItems_of_notObject rfl rfl
  | .arr _ :: _ => answersItems_of_notObject rfl rfl

end

end

/-- Doing all tasks of a document ends well iff the grammar has a filter for it that is within the limit.
Then this filter is all there is, and its nodes have been counted. -/
theorem run_document (site : Site) (members : List (String × Json)) :
    match filter? (.obj members) with
      | some f => run site {} [.scope "" members] = site.upTo f.nodeCount (.ok ⟨[f], f.nodeCount⟩)
      | none => ∃ e, run site {} [.scope "" members] = .error e ∧ Balanced e := by
  have hscope := answers_scope (answers_members site "" members)
  rw [filter?]
  cases hanswer : (members? "" members).bind conjunction? with
  | none =>
    rw [hanswer] at hscope
    exact hscope {} [] (Nat.zero_le _)
  | some f =>
    rw [hanswer] at hscope
    have hrun := hscope {} [] (Nat.zero_le _)
    have hadd : State.add {} [f] = ⟨[f], f.nodeCount⟩ := by
      simp [State.add, Filter.nodeCountAll]
    rw [List.append_nil, run_nil, hadd] at hrun
    exact hrun

theorem run_eq_ok {site : Site} {members : List (String × Json)} {done : State} :
    run site {} [.scope "" members] = .ok done ↔
      ∃ f, filter? (.obj members) = some f ∧ f.nodeCount ≤ site.limit ∧ done = ⟨[f], f.nodeCount⟩ := by
  have hrun := run_document site members
  cases hanswer : filter? (.obj members) with
  | none =>
    rw [hanswer] at hrun
    obtain ⟨e, he, -⟩ := hrun
    simp [he]
  | some f =>
    rw [hanswer] at hrun
    dsimp only at hrun
    rw [hrun, Site.upTo]
    split
    · rename_i hlimit
      simp [hlimit, eq_comm]
    · rename_i hlimit
      simp [hlimit]

theorem balanced_of_run {site : Site} {members : List (String × Json)} {e : Error}
    (h : run site {} [.scope "" members] = .error e) : Balanced e := by
  have hrun := run_document site members
  cases hanswer : filter? (.obj members) with
  | none =>
    rw [hanswer] at hrun
    obtain ⟨e', he', hbalanced⟩ := hrun
    cases h.symm.trans he'
    exact hbalanced
  | some f =>
    rw [hanswer] at hrun
    dsimp only at hrun
    rw [hrun, Site.upTo] at h
    split at h
    · cases h
    · cases h
      exact balanced_tooComplex _

end Structured

open Structured

namespace Filter

/-- A document is read iff the grammar has a filter for it that is within the limit. -/
theorem ofStructured_eq_ok {parameter : String} {limit : Nat} {v : Json} {f : Filter} :
    ofStructured parameter limit v = .ok f ↔ filter? v = some f ∧ f.nodeCount ≤ limit := by
  cases v with
  | obj members =>
    rw [ofStructured]
    constructor
    · intro h
      obtain ⟨done, hdone, h⟩ := Except.bind_eq_ok.1 h
      obtain ⟨g, hg, hlimit, rfl⟩ := run_eq_ok.1 hdone
      cases h
      exact ⟨hg, hlimit⟩
    · rintro ⟨hf, hlimit⟩
      exact Except.bind_eq_ok.2 ⟨_, run_eq_ok.2 ⟨f, hf, hlimit, rfl⟩, rfl⟩
  | _ => simp [ofStructured, filter?]

/-- Reading with a stack of tasks accepts exactly the documents for which the grammar has a filter of at
most `limit` nodes, and gives that filter. At the end reading has counted the nodes of the filter, and
nothing is ever left over. -/
theorem ofStructured_accepts_grammar (parameter : String) (limit : Nat) :
    (∀ v f, ofStructured parameter limit v = .ok f ↔ filter? v = some f ∧ f.nodeCount ≤ limit) ∧
      (∀ members done, run ⟨parameter, limit⟩ {} [.scope "" members] = .ok done ↔
        ∃ f, ofStructured parameter limit (.obj members) = .ok f ∧ done = ⟨[f], f.nodeCount⟩) ∧
      ∀ v spot, ofStructured parameter limit v ≠ .error (.malformedQuery spot .unbalanced) := by
  refine ⟨fun v f => ofStructured_eq_ok, fun members done => ?_, fun v spot h => ?_⟩
  · simp only [ofStructured_eq_ok, run_eq_ok, and_assoc]
  · cases v with
    | obj members =>
      rcases Except.bind_eq_error.1 h with hrun | ⟨done, hdone, h⟩
      · exact balanced_of_run hrun spot rfl
      · obtain ⟨f, -, -, rfl⟩ := run_eq_ok.1 hdone
        cases h
    | _ => cases h

/-- Paths in a scope start at its key, also below a combinator. -/
example : filter? (.obj [("tracks", .obj [("$or", .arr [.obj [("name", .str "A")],
      .obj [("length", .obj [("$gt", .int 1), ("$lte", .int 5)])]])])]) =
    some (.or [.compare ⟨"tracks.name", .eq, .str "A"⟩, .and [.compare ⟨"tracks.length", .gt, .int 1⟩,
      .compare ⟨"tracks.length", .lte, .int 5⟩]]) := rfl

end Filter

end NestedResources
