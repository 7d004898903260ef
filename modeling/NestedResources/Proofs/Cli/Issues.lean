import Mathlib.Data.List.Induction
import NestedResources.Cli.Run
import NestedResources.Proofs.Dict
import NestedResources.Proofs.Service.Serving

/-!
# Issues in bodies and on the terminal

The body of a refusal keeps every issue, keyed by path (`Issue.groups_grouped`). What is printed is one line for
each item of a list (`Invocation.showRefusal_of_list`), which the issues of a body are not: the message of a
refusal is printed, and none of its issues (`Invocation.prints_no_issue`).
-/
namespace NestedResources

/-- A text that an object has. -/
def Json.textAt (j : Json) (key : String) : String := ((j.getD key).string?).getD ""

theorem Json.textAt_object {pairs : List (String × Json)} (hnodup : (pairs.map (·.1)).Nodup) {key text : String}
    (h : pairs.find? (·.1 = key) = some (key, .str text)) : (Json.object pairs).textAt key = text := by
  have hget : (Json.object pairs).get? key = some (.str text) := by
    rw [show (Json.object pairs).get? key = _ from Entries.get?_ofList hnodup key, h]
    rfl
  rw [Json.textAt, Json.getD, hget]
  rfl

namespace Issue

/-! ## Issues keyed by path -/

/-- What is said of an issue under its path. -/
def detail (i : Issue) : Json := .object [("code", .str i.code), ("message", .str i.message)]

/-- The details of the issues at a path, in the order in which they were found. -/
def detailsAt (issues : List Issue) (path : String) : List Json :=
  (issues.filter (·.field = path)).map detail

/-- Files an issue behind those at its path. -/
def file (members : List (String × Json)) (i : Issue) : List (String × Json) :=
  let found := match Entries.get? i.field members with
    | some (.arr items) => items
    | _ => []
  Entries.insert i.field (.arr (found ++ [i.detail])) members

theorem grouped_eq (issues : List Issue) : grouped issues = .obj (issues.foldl file []) := rfl

/-- An issue as an item of a list. -/
def item (i : Issue) : Json :=
  .object [("field", .str i.field), ("code", .str i.code), ("message", .str i.message)]

/-- The line for an issue on the terminal. -/
def line (i : Issue) : String := "  • " ++ i.field ++ ": " ++ i.message ++ " (" ++ i.code ++ ")"

/-- The code and the message can be read from a detail. -/
theorem textAt_detail (i : Issue) :
    (i.detail.textAt "code", i.detail.textAt "message") = (i.code, i.message) :=
  congrArg₂ Prod.mk (Json.textAt_object (by simp) rfl) (Json.textAt_object (by simp) rfl)

theorem detailsAt_concat (issues : List Issue) (i : Issue) (path : String) :
    detailsAt (issues ++ [i]) path = detailsAt issues path ++ if i.field = path then [i.detail] else [] := by
  rw [detailsAt, List.filter_append, List.map_append, ← detailsAt]
  split <;> simp [*]

/-- Members that have issues under their paths: each path of an issue once, with all of its issues in order. -/
structure Groups (issues : List Issue) (members : List (String × Json)) : Prop where
  ordered : Entries.Ordered members
  get?_eq_some : ∀ path value, Entries.get? path members = some value ↔
    value = .arr (detailsAt issues path) ∧ ∃ i ∈ issues, i.field = path

theorem Groups.found_eq {issues : List Issue} {members : List (String × Json)} (h : Groups issues members)
    (path : String) :
    (match Entries.get? path members with
      | some (.arr items) => items
      | _ => []) = detailsAt issues path := by
  cases hget : Entries.get? path members with
  | some value =>
    obtain ⟨rfl, -⟩ := (h.get?_eq_some path value).1 hget
    rfl
  | none =>
    have hnone : ∀ i ∈ issues, ¬i.field = path := by
      intro i hi hfield
      have hsome := (h.get?_eq_some path _).2 ⟨rfl, i, hi, hfield⟩
      rw [hget] at hsome
      cases hsome
    have hempty : issues.filter (·.field = path) = [] := by simpa using hnone
    rw [detailsAt, hempty, List.map_nil]

theorem Groups.file {issues : List Issue} {members : List (String × Json)} (h : Groups issues members)
    (i : Issue) : Groups (issues ++ [i]) (file members i) := by
  refine ⟨h.ordered.insert _ _, fun path value => ?_⟩
  rw [Issue.file, h.found_eq, detailsAt_concat]
  by_cases hpath : path = i.field
  · subst hpath
    rw [Entries.get?_insert_self, if_pos rfl, Option.some.injEq, eq_comm]
    exact ⟨fun hvalue => ⟨hvalue, i, List.mem_append_right _ List.mem_cons_self, rfl⟩, And.left⟩
  · rw [Entries.get?_insert_of_ne hpath, if_neg (Ne.symm hpath), List.append_nil, h.get?_eq_some]
    refine and_congr_right fun _ => ⟨fun ⟨j, hj, hfield⟩ => ⟨j, List.mem_append_left _ hj, hfield⟩, ?_⟩
    rintro ⟨j, hj, hfield⟩
    rcases List.mem_append.1 hj with hj | hj
    · exact ⟨j, hj, hfield⟩
    · exact absurd (List.mem_singleton.1 hj ▸ hfield).symm hpath

/-- Every issue is kept. -/
theorem groups_grouped (issues : List Issue) : ∃ members, grouped issues = .obj members ∧ Groups issues members := by
  refine ⟨_, grouped_eq issues, ?_⟩
  induction issues using List.reverseRecOn with
  | nil => exact ⟨.nil, fun path value => by simp⟩
  | append_singleton issues i ih =>
    rw [List.foldl_append]
    exact ih.file i

/-- Issues with one body have the same codes and messages at every path, in the same order. -/
theorem eq_of_grouped_eq {issues others : List Issue} (h : grouped issues = grouped others) (path : String) :
    (issues.filter (·.field = path)).map (fun i => (i.code, i.message)) =
      (others.filter (·.field = path)).map fun i => (i.code, i.message) := by
  obtain ⟨members, hmembers, hgroups⟩ := groups_grouped issues
  obtain ⟨rest, hrest, hothers⟩ := groups_grouped others
  obtain rfl : members = rest := Json.obj.inj (hmembers.symm.trans (h.trans hrest))
  have hdetails : detailsAt issues path = detailsAt others path :=
    (hgroups.found_eq path).symm.trans (hothers.found_eq path)
  have hread : ∀ found : List Issue, found.map (fun i => (i.code, i.message)) =
      (found.map detail).map fun d => (d.textAt "code", d.textAt "message") := by
    intro found
    rw [List.map_map]
    exact List.map_congr_left fun i _ => i.textAt_detail.symm
  rw [hread, hread]
  exact congrArg _ hdetails

end Issue

/-! ## Bodies of refusals -/

namespace Error

theorem get?_body {e : Error} {key : String} : e.body.get? key =
    ((([("kind", .str e.kind), ("message", .str e.message)] ++
      match e with
      | unprocessable issues => [("errors", Issue.grouped issues)]
      | _ => []) : List (String × Json)).find? (·.1 = key)).map (·.2) := by
  refine Entries.get?_ofList ?_ key
  cases e <;> simp

theorem errors_body_unprocessable (issues : List Issue) :
    (unprocessable issues).body.get? "errors" = some (Issue.grouped issues) := by
  rw [get?_body]
  rfl

theorem message_body (e : Error) : e.body.get? "message" = some (.str e.message) := by
  rw [get?_body]
  rfl

end Error

/-! ## What is printed -/

namespace Cli

/-- The line for an item of a list of issues. -/
def itemLine (item : Json) : String :=
  "  • " ++ item.textAt "field" ++ ": " ++ item.textAt "message" ++ " (" ++ item.textAt "code" ++ ")"

namespace Running

variable {α β : Type} {f : α → Running β}

/-- What is read goes on to the next part. -/
theorem run_bind_read {x : Except Failure α} {a : α} (h : x = .ok a) (t : Transcript) :
    ((liftM x : Running α) >>= f).run.run t = (f a).run.run t := by
  subst h
  exact Except.run_bind_of_ok rfl

/-- Printing never fails. -/
theorem run_bind_printing (m : Printing α) (t : Transcript) :
    ((liftM m : Running α) >>= f).run.run t = (f (m.run t).1).run.run (m.run t).2 :=
  Except.run_bind_of_ok rfl

end Running

namespace Invocation

variable (i : Invocation)

theorem run_print (line : String) (t : Transcript) :
    (i.print line).run t = ((), if i.quiet then t else t.print line) := by
  unfold print
  split <;> rfl

theorem run_forM_print {α : Type} (f : α → String) (items : List α) (t : Transcript) :
    (items.forM fun a => i.print (f a)).run t =
      ((), if i.quiet then t else items.foldl (fun t a => t.print (f a)) t) := by
  induction items generalizing t with
  | nil => simp; rfl
  | cons a items ih =>
    change (i.print (f a) >>= fun _ => items.forM fun a => i.print (f a)).run t = _
    rw [StateT.run_bind, run_print]
    change (items.forM fun a => i.print (f a)).run _ = _
    rw [ih]
    split <;> rfl

/-- A refusal prints its message, and a line for each item if its issues are a list. -/
theorem run_showRefusal (body : Json) (t : Transcript) : (i.showRefusal body).run t =
    ((), let shown := t.printError (Level.error.line (((body.getD "message").string?).getD "request failed"))
      if i.quiet then shown
      else (((body.getD "errors").array?).getD []).foldl (fun t item => t.print (itemLine item)) shown) :=
  i.run_forM_print itemLine _ _

/-- The issues of a call as they are meant to be printed: a line for each, unless the call is quiet. -/
def printIssues (issues : List Issue) (t : Transcript) : Transcript :=
  if i.quiet then t else issues.foldl (fun t issue => t.print issue.line) t

theorem itemLine_item (issue : Issue) : itemLine issue.item = issue.line := by
  have hfield : issue.item.textAt "field" = issue.field := Json.textAt_object (by simp) rfl
  have hmessage : issue.item.textAt "message" = issue.message := Json.textAt_object (by simp) rfl
  have hcode : issue.item.textAt "code" = issue.code := Json.textAt_object (by simp) rfl
  rw [itemLine, hfield, hmessage, hcode, Issue.line]

/-- The issues of a list are all printed, in order and each once. -/
theorem showRefusal_of_list {body : Json} {message : String} {issues : List Issue}
    (hmessage : body.getD "message" = .str message) (herrors : body.getD "errors" = .arr (issues.map Issue.item))
    (t : Transcript) :
    (i.showRefusal body).run t = ((), i.printIssues issues (t.printError (Level.error.line message))) := by
  rw [run_showRefusal, hmessage, herrors]
  dsimp only [Json.string?, Json.array?, Option.getD_some]
  rw [List.foldl_map]
  simp only [itemLine_item]
  rfl

/-- The issues of a refusal are no list, so only its message is printed. -/
theorem showRefusal_unprocessable (issues : List Issue) (t : Transcript) :
    (i.showRefusal (Error.unprocessable issues).body).run t =
      ((), t.printError (Level.error.line "unprocessable entity")) := by
  have hmessage : (Error.unprocessable issues).body.getD "message" = .str "unprocessable entity" := by
    rw [Json.getD, Error.message_body]
    rfl
  have herrors : (((Error.unprocessable issues).body.getD "errors").array?).getD [] = [] := by
    rw [Json.getD, Error.errors_body_unprocessable]
    rfl
  rw [run_showRefusal, hmessage, herrors]
  dsimp only [Json.string?, Option.getD_some, List.foldl_nil]
  rw [ite_self]

theorem length_stdout_le (issues : List Issue) (t : Transcript) :
    t.stdout.length + issues.length ≤ (issues.foldl (fun t issue => t.print issue.line) t).stdout.length := by
  induction issues generalizing t with
  | nil => exact Nat.le_refl _
  | cons issue issues ih =>
    refine Nat.le_trans ?_ (ih (t.print issue.line))
    rw [Transcript.print, String.length_append, String.length_append, List.length_cons, show "\n".length = 1 from rfl]
    omega

/-- Issues leave no trace on the terminal only if there are none, or if the call is quiet. -/
theorem stdout_printIssues_eq_iff (issues : List Issue) (t : Transcript) :
    (i.printIssues issues t).stdout = t.stdout ↔ i.quiet = true ∨ issues = [] := by
  unfold printIssues
  split
  · rename_i hquiet
    exact iff_of_true rfl (.inl hquiet)
  · rename_i hloud
    refine ⟨fun hsame => .inr ?_, ?_⟩
    · have hlength := length_stdout_le issues t
      rw [hsame] at hlength
      exact List.length_eq_zero_iff.1 (by omega)
    · rintro (hquiet | rfl)
      · exact absurd hquiet hloud
      · rfl

/-- A line that only a verbose call prints. -/
def traced (message : String) (t : Transcript) : Transcript :=
  if i.verbose && !i.quiet then t.printError (Level.trace.line message) else t

theorem run_trace (message : String) (t : Transcript) :
    (i.emit .trace message).run t = ((), i.traced message t) := by
  unfold emit traced
  dsimp only
  split <;> rfl

/-- A call that sends a request to a service. -/
structure Sends (inputs : Inputs) (ctx : Context) (request : Request) : Prop where
  path : i.path.getD "" = request.path
  params : i.requestParams = .ok request.params
  context : i.requestContext = .ok ctx
  body : i.requestBody inputs = .ok request.body

variable {i} {inputs : Inputs} {service : Service} {store : Store} {ctx : Context} {request : Request}

/-- A call that finds the demo service with its store. -/
def Finds (inputs : Inputs) (service : Service) (store : Store) : Prop :=
  ∃ settings, readSettings inputs = .ok settings ∧ ensureInMemory inputs settings.store = .ok () ∧
    demo settings = .ok (service, store)

theorem run_request (hfinds : Finds inputs service store) (hverb : i.verb = some (.request request.method))
    (t : Transcript) : (i.run inputs).run.run t =
      (i.runRequest service store inputs request.method).run.run (i.traced "store backend: Memory" t) := by
  obtain ⟨settings, hsettings, hmemory, hdemo⟩ := hfinds
  unfold run
  rw [Running.run_bind_read hsettings, Running.run_bind_read hmemory, Running.run_bind_read hdemo]
  dsimp only
  rw [Running.run_bind_printing, run_trace, hverb]

theorem runRequest_refused (h : i.Sends inputs ctx request)
    (hrefused : (service.dispatch ctx request { store }).1.isSuccess = false) (t : Transcript) :
    (i.runRequest service store inputs request.method).run.run t =
      (.error (.refused request.method request.path (service.dispatch ctx request { store }).1.status),
        ((i.showRefusal (service.dispatch ctx request { store }).1.body).run
          (i.traced (request.method.name ++ " " ++ request.path ++ " ?" ++ request.params.render) t)).2) := by
  obtain ⟨method, path, params, body⟩ := request
  obtain rfl : i.path.getD "" = path := h.path
  unfold runRequest
  rw [Running.run_bind_read h.params, Running.run_bind_read h.context, Running.run_bind_printing, run_trace,
    Running.run_bind_read h.body]
  dsimp only
  rw [if_neg (by rw [hrefused]; exact Bool.false_ne_true), Running.run_bind_printing]
  rfl

@[simp] theorem stdout_traced (message : String) (t : Transcript) : (i.traced message t).stdout = t.stdout := by
  unfold traced
  split <;> rfl

theorem fst_dispatch_of_error {d : Desk} {e : Error} (h : ((service.tryDispatch ctx request).on d).1 = .error e) :
    (service.dispatch ctx request d).1 = .ofError e := by
  unfold Serving.on at h
  unfold Service.dispatch
  rcases hrun : (service.tryDispatch ctx request).run.run d with ⟨answer, after⟩
  rw [hrun] at h
  cases h
  rfl

/-- What a call prints of a request that is refused for issues. -/
def refusedTranscript (request : Request) : Transcript :=
  ((i.traced (request.method.name ++ " " ++ request.path ++ " ?" ++ request.params.render)
    (i.traced "store backend: Memory" {})).printError (Level.error.line "unprocessable entity")).printError
      ("Error: " ++ (Failure.refused request.method request.path 422).message)

@[simp] theorem stdout_refusedTranscript (request : Request) : (i.refusedTranscript request).stdout = "" :=
  (stdout_traced ..).trans (stdout_traced ..)

theorem result_of_issues {issues : List Issue} (hfinds : Finds inputs service store)
    (hverb : i.verb = some (.request request.method)) (hsends : i.Sends inputs ctx request)
    (hissues : ((service.tryDispatch ctx request).on { store }).1 = .error (.unprocessable issues)) :
    i.result inputs = ⟨1, i.refusedTranscript request⟩ := by
  have hresponse := fst_dispatch_of_error hissues
  have hrefused : (service.dispatch ctx request { store }).1.isSuccess = false := by
    rw [hresponse]
    rfl
  have hrun := (run_request hfinds hverb {}).trans (runRequest_refused hsends hrefused _)
  rw [hresponse] at hrun
  unfold result
  rw [hrun]
  dsimp only [Response.ofError]
  rw [showRefusal_unprocessable]
  rfl

/-- A request that is refused for issues is answered with all of them: each path of an issue stands once in the
body, with the codes and messages of its issues in order. But the command prints none of them. It prints the message
of the refusal and how the request ended, so a line for each issue is what it prints only if there are no issues, or
if it is quiet. -/
theorem prints_no_issue {issues : List Issue} (hfinds : Finds inputs service store)
    (hverb : i.verb = some (.request request.method)) (hsends : i.Sends inputs ctx request)
    (hissues : ((service.tryDispatch ctx request).on { store }).1 = .error (.unprocessable issues)) :
    (∃ members, (service.dispatch ctx request { store }).1.body.get? "errors" = some (.obj members) ∧
      Issue.Groups issues members) ∧
    i.result inputs = ⟨1, i.refusedTranscript request⟩ ∧ (i.result inputs).transcript.stdout = "" ∧
    ((i.result inputs).transcript.stdout = (i.printIssues issues {}).stdout ↔ i.quiet = true ∨ issues = []) := by
  have hresult := result_of_issues hfinds hverb hsends hissues
  have hstdout : (i.result inputs).transcript.stdout = "" := by
    rw [hresult]
    exact stdout_refusedTranscript request
  obtain ⟨members, hgrouped, hgroups⟩ := Issue.groups_grouped issues
  refine ⟨⟨members, ?_, hgroups⟩, hresult, hstdout, ?_⟩
  · rw [fst_dispatch_of_error hissues, Response.ofError, Error.errors_body_unprocessable, hgrouped]
  · rw [hstdout, eq_comm]
    exact i.stdout_printIssues_eq_iff issues {}

end Invocation

end Cli

namespace Music

open Cli

/-! ## What the demo refuses -/

instance {α : Type} (x : Except Error α) (e : Error) : Decidable (x = .error e) :=
  match x with
  | .ok _ => .isFalse nofun
  | .error other => decidable_of_iff (other = e) (by simp)

/-- A call that posts a body. -/
def post (path body : String) : Invocation where
  verb := some (.request .post)
  path := some path
  body := some body

def postRequest (path : String) (body : Json) : Request where
  method := .post
  path
  params := (Params.parse "").append []
  body := some body

/-- Surroundings without a settings file. -/
def bare : Inputs := { settingsFile := "nestql.toml" }

theorem exists_refused {request : Request} {issues : List Issue}
    (h : ∃ d ∈ (Invocation.demo {}).toOption,
      ((d.1.tryDispatch .empty request).on { store := d.2 }).1 = .error (.unprocessable issues)) :
    ∃ service store, Invocation.Finds bare service store ∧
      ((service.tryDispatch .empty request).on { store }).1 = .error (.unprocessable issues) := by
  obtain ⟨⟨service, store⟩, hdemo, hissues⟩ := h
  exact ⟨service, store, ⟨{}, rfl, rfl, Except.toOption_eq_some.1 hdemo⟩, hissues⟩

/-- An album without title and artist is refused for both, and nothing is said of either. -/
theorem postAlbum_prints_no_issue :
    ((post "/albums" "{}").result bare).transcript =
      ⟨"", "✗ unprocessable entity\nError: POST /albums failed with status 422\n"⟩ ∧
    ((post "/albums" "{}").result bare).transcript.stdout ≠
      ((post "/albums" "{}").printIssues [Defect.fieldMissing.issueAt "title", Defect.fieldMissing.issueAt "artist_id"]
        {}).stdout := by
  obtain ⟨service, store, hfinds, hissues⟩ := @exists_refused (postRequest "/albums" (.obj []))
    [Defect.fieldMissing.issueAt "title", Defect.fieldMissing.issueAt "artist_id"] (by decide +kernel)
  obtain ⟨-, hresult, -, hlines⟩ := Invocation.prints_no_issue hfinds (i := post "/albums" "{}") rfl
    ⟨rfl, rfl, rfl, rfl⟩ hissues
  refine ⟨?_, fun hsame => ?_⟩
  · rw [hresult]
    decide +kernel
  · rcases hlines.1 hsame with hquiet | hnone
    · cases hquiet
    · cases hnone

/-- An artist without a name is refused for it. The call is not quiet, but the line for the missing name is not
printed. -/
theorem postArtist_line_missing :
    (∃ service store, Invocation.Finds bare service store ∧
      (post "/artists" "{}").Sends bare .empty (postRequest "/artists" (.obj [])) ∧
      ((service.tryDispatch .empty (postRequest "/artists" (.obj []))).on { store }).1 =
        .error (.unprocessable [Defect.fieldMissing.issueAt "name"])) ∧
    (Defect.fieldMissing.issueAt "name").line = "  • name: field is required (field.required)" ∧
    (post "/artists" "{}").quiet = false ∧ ((post "/artists" "{}").result bare).transcript.stdout = "" := by
  obtain ⟨service, store, hfinds, hissues⟩ := @exists_refused (postRequest "/artists" (.obj []))
    [Defect.fieldMissing.issueAt "name"] (by decide +kernel)
  have hsends : (post "/artists" "{}").Sends bare .empty (postRequest "/artists" (.obj [])) := ⟨rfl, rfl, rfl, rfl⟩
  refine ⟨⟨service, store, hfinds, hsends, hissues⟩, by decide +kernel, rfl, ?_⟩
  rw [Invocation.result_of_issues hfinds rfl hsends hissues]
  exact Invocation.stdout_refusedTranscript _

end Music

end NestedResources
