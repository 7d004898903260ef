import NestedResources.Demo.Music
import NestedResources.Proofs.Service.Serving
import NestedResources.Proofs.Store.Creation
import NestedResources.Proofs.Write.Creation

/-!
# Documents that pass and commits that succeed

A walk reports the fields that a new entity lacks and that are required on input; the commit refuses a
creation that leaves an identity or a required column empty. What comes of a creation without issues is
known exactly (`create_cases`). The two agree where every field that has to be set is required on input or
is part of an identity that the store assigns (`Resource.Settles`), and then a creation fails only if its
key is taken.
-/
namespace NestedResources

namespace Resource

/-- Whether the store assigns a value to a field of a new entity. -/
def Assigns (r : Resource) (f : Field) : Prop := f ∈ r.identityFields ∧ f.generated = true

/-- Whether every document of a new entity has to set the column of a field. -/
def Demands (r : Resource) (f : Field) : Prop :=
  f.requiredOnInput = true ∧ ¬r.Skips f.name ∧ ∀ g ∈ r.fields, g.column = f.column → g.optional = false

/-- Whether every field that a new entity must have is assigned by the store or demanded from documents. -/
def Settles (r : Resource) : Prop :=
  ∀ f ∈ r.fields, f.optional = false ∨ f.generated = true ∨ f ∈ r.identityFields → r.Assigns f ∨ r.Demands f

instance (r : Resource) : Decidable r.Settles :=
  inferInstanceAs (Decidable (∀ f ∈ r.fields,
    f.optional = false ∨ f.generated = true ∨ f ∈ r.identityFields → (_ ∧ _) ∨ (_ ∧ ¬_ ∧ ∀ g ∈ r.fields, _)))

end Resource

/-- The check at the end of a plan that wrote one row. -/
theorem Progress.emptyColumn?_of_single {p : Progress} {schema : Schema} {r : Resource} {key : String}
    {record : Record} (hr : schema.resource? r.name = some r) (htouched : p.touched = [(r.name, key)])
    (hrow : p.tables.rowAt? r.name key = some record) :
    p.emptyColumn? schema =
      (r.fields.find? fun f : Field => !f.optional && (record.value? f.column).isNone).map fun f =>
        .columnEmpty r.name key f.name := by
  rw [emptyColumn?, htouched, List.findSome?_cons]
  simp only [hrow, hr, Option.bind_eq_bind, Option.bind_some, List.findSome?_nil]
  cases r.fields.find? fun f : Field => !f.optional && (record.value? f.column).isNone <;> rfl

namespace WriteOp

open Walking

variable {g : Registry} {ctx : Context} {r : Resource} {d : Desk} {members : List (String × Json)}
  {roots : List EntityRef} {w : Walk}

/-- What comes of a creation from a document of scalars without issues: an identity column is neither
written nor assigned, the key is taken, a required column is left empty, or one row is filed in which
exactly the columns that were written and those of the identity are set. -/
theorem create_cases (hr : g.schema.resource? r.name = some r)
    (hapart : ∀ m ∈ members, (r.relationship? m.1).isSome = true → m.2.isString = true)
    (hrun : ((create r.name (.obj members)).walk ⟨g, ctx, d.store.tables⟩).run.run {} = (.ok roots, w))
    (hclean : w.issues = []) :
    ∃ values, r.values? none members = some values ∧ r.Supplies members ∧
      ((∃ f ∈ r.identityFields, (values.value? f.column).isSome = false ∧ f.generated = false ∧
        ((Serving.commit g ctx (create r.name (.obj members)).walk).on d).1 =
          .error (.conflict (.identityMissing r.name f.name))) ∨
      ∃ record i, r.identityOf? record = some i ∧
        (∀ c, (record.value? c).isSome = true ↔
          (values.value? c).isSome = true ∨ c ∈ r.identityFields.map Field.column) ∧
        ((d.store.tables.row? r.name i).isSome = true ∧
            ((Serving.commit g ctx (create r.name (.obj members)).walk).on d).1 =
              .error (.conflict (.alreadyExists r.name i.key)) ∨
          (∃ f ∈ r.fields, f.optional = false ∧ (record.value? f.column).isSome = false ∧
            ((Serving.commit g ctx (create r.name (.obj members)).walk).on d).1 =
              .error (.conflict (.columnEmpty r.name i.key f.name))) ∨
          (∀ f ∈ r.fields, f.optional = false → (record.value? f.column).isSome = true) ∧
            ∃ o after, (Serving.commit g ctx (create r.name (.obj members)).walk).on d = (.ok o, after) ∧
              o.identities = [i] ∧ after.store.tables = d.store.tables.putRow r.name i.key record)) := by
  obtain ⟨values, hvalues, hsupplies, rfl, hcommands⟩ := create_plan hr
    (fun m hm _ hrel => hapart m hm (Option.isSome_of_eq_some (Resource.relationship?_of_walked? hrel)))
    hrun hclean
  refine ⟨values, hvalues, hsupplies, ?_⟩
  rw [Serving.commit_on hrun]
  dsimp only [bind, Except.bind]
  unfold Serving.settle Store.apply
  rw [if_pos (List.isEmpty_iff.2 hclean), hcommands, List.foldlM_cons, Progress.apply]
  rcases Progress.createRow_cases hr { store := d.store } values with ⟨f, hf, hunset, hgenerated, herror⟩ |
    ⟨record, i, hi, hset, hcases⟩
  · rw [show Progress.createRow { store := d.store } g.schema 0 r.name values = _ from herror]
    exact .inl ⟨f, hf, hunset, hgenerated, rfl⟩
  · refine .inr ⟨record, i, hi, hset, ?_⟩
    rcases hcases with ⟨htaken, herror⟩ | ⟨q, hok, htables, htouched, hcreated⟩
    · rw [show Progress.createRow { store := d.store } g.schema 0 r.name values = _ from herror]
      exact .inl ⟨htaken, rfl⟩
    · have hrow : q.tables.rowAt? r.name i.key = some record := by
        rw [htables, Tables.rowAt?_putRow_self]
      rw [show Progress.createRow { store := d.store } g.schema 0 r.name values = _ from hok]
      dsimp only [bind, Except.bind, List.foldlM_nil, pure, Except.pure]
      rw [Progress.emptyColumn?_of_single hr htouched hrow]
      cases hfull : r.fields.find? fun f : Field => !f.optional && (record.value? f.column).isNone with
      | some f =>
        have hempty := List.find?_some hfull
        rw [Bool.and_eq_true, Bool.not_eq_true', Option.isNone_iff_eq_none] at hempty
        exact .inr (.inl ⟨f, List.mem_of_find?_eq_some hfull, hempty.1, by rw [hempty.2]; rfl, rfl⟩)
      | none =>
        refine .inr (.inr ⟨fun f hf hoptional => ?_, _, _, rfl, ?_, htables⟩)
        · have hset := List.find?_eq_none.1 hfull f hf
          simpa [hoptional, Option.isSome_iff_ne_none] using hset
        · rw [Outcome.ofReport, hcreated]
          rfl

/-- A document that passes is created as a whole, where every field that has to be set is assigned by the
store or demanded from documents: unless the key is taken, the new row has a value for every field that is
not optional and for every one that the store is said to assign. -/
theorem create_complete (hr : g.schema.resource? r.name = some r) (hsettles : r.Settles)
    (hapart : ∀ m ∈ members, (r.relationship? m.1).isSome = true → m.2.isString = true)
    (hrun : ((create r.name (.obj members)).walk ⟨g, ctx, d.store.tables⟩).run.run {} = (.ok roots, w))
    (hclean : w.issues = []) :
    ∃ i, (d.store.tables.row? r.name i).isSome = true ∧
        ((Serving.commit g ctx (create r.name (.obj members)).walk).on d).1 =
          .error (.conflict (.alreadyExists r.name i.key)) ∨
      ∃ o after record, (Serving.commit g ctx (create r.name (.obj members)).walk).on d = (.ok o, after) ∧
        o.identities = [i] ∧ after.store.tables.row? r.name i = some record ∧ r.identityOf? record = some i ∧
        ∀ f ∈ r.fields, f.optional = false ∨ f.generated = true → (record.value? f.column).isSome = true := by
  obtain ⟨values, hvalues, hsupplies, hcases⟩ := create_cases hr hapart hrun hclean
  have hdemanded : ∀ f ∈ r.fields, r.Demands f → (values.value? f.column).isSome = true := by
    rintro f hf ⟨hrequired, hread, hfull⟩
    obtain ⟨raw, hraw⟩ := Option.isSome_iff_exists.1 (hsupplies f hf hrequired)
    exact Resource.isSome_value?_of_mem (Resource.field?_of_mem hr hf) hread hfull (Entries.mem_of_get? hraw)
      hvalues
  have hidentity : ∀ f ∈ r.identityFields, f ∈ r.fields := fun f hf =>
    List.mem_of_find?_eq_some (Resource.field?_of_mem_identityFields hf).1
  rcases hcases with ⟨f, hf, hunset, hgenerated, -⟩ | ⟨record, i, hi, hset, hcases⟩
  · rcases hsettles f (hidentity f hf) (.inr (.inr hf)) with ⟨-, hassigned⟩ | hdemands
    · cases hgenerated.symm.trans hassigned
    · cases hunset.symm.trans (hdemanded f (hidentity f hf) hdemands)
  · have hcomplete : ∀ f ∈ r.fields, f.optional = false ∨ f.generated = true →
        (record.value? f.column).isSome = true := by
      intro f hf hneeded
      refine (hset f.column).2 ?_
      rcases hsettles f hf (hneeded.imp_right .inl) with ⟨hassigned, -⟩ | hdemands
      · exact .inr (List.mem_map_of_mem hassigned)
      · exact .inl (hdemanded f hf hdemands)
    refine ⟨i, ?_⟩
    rcases hcases with htaken | ⟨f, hf, hoptional, hempty, -⟩ | ⟨-, o, after, hok, hidentities, htables⟩
    · exact .inl htaken
    · cases hempty.symm.trans (hcomplete f hf (.inl hoptional))
    · refine .inr ⟨o, after, record, hok, hidentities, ?_, hi, hcomplete⟩
      rw [Tables.row?, htables, Tables.rowAt?_putRow_self]

end WriteOp

namespace Music

def receipts : Resource where
  name := "receipts"
  identity := ["receipt_id"]
  fields := [key "receipt_id", field "buyer" .string]

/-- Tickets with a stamp that the store is said to assign. -/
def tickets : Resource where
  name := "tickets"
  identity := ["ticket_id"]
  fields := [key "ticket_id", { field "stamp" .integer with generated := true }]

/-- A ticket office, open to everybody. -/
def office : Registry where
  schema := {
    table := .ofList [("receipts", receipts), ("tickets", tickets)]
    named := by decide +kernel
    faultless := by decide +kernel }
  gates := []
  relationshipGates := []

def newReceipt : WriteOp := .create "receipts" (.obj [("buyer", .str "Ada")])

def newTicket : WriteOp := .create "tickets" (.obj [])

def commitNew (op : WriteOp) : Except Error Outcome × Desk :=
  (Serving.commit office ⟨.empty⟩ op.walk).on ⟨default, []⟩

/-- A receipt that passes is filed with its buyer and the number that it is assigned. -/
theorem receipt_complete : ∃ o after record, commitNew newReceipt = (.ok o, after) ∧
    after.store.tables.rowAt? "receipts" "1" = some record ∧
    ∀ f ∈ receipts.fields, (record.value? f.column).isSome = true := by
  have hrequired : ∀ f ∈ receipts.fields, f.optional = false := by decide
  have hkeys : (commitNew newReceipt).1.map Outcome.keys = .ok ["1"] := by decide +kernel
  have hok : ((newReceipt.walk ⟨office, ⟨.empty⟩, .empty⟩).run.run {}).1.isOk = true := by decide +kernel
  have hclean : ((newReceipt.walk ⟨office, ⟨.empty⟩, .empty⟩).run.run {}).2.issues = [] := by decide +kernel
  rcases hrun : (newReceipt.walk ⟨office, ⟨.empty⟩, .empty⟩).run.run {} with ⟨result, w⟩
  rw [hrun] at hok hclean
  obtain ⟨roots, rfl⟩ := Except.exists_of_isOk hok
  obtain ⟨i, ⟨-, herror⟩ | ⟨o, after, record, hcommit, hidentities, hrow, -, hcomplete⟩⟩ :=
    @WriteOp.create_complete office ⟨.empty⟩ receipts ⟨default, []⟩ [("buyer", .str "Ada")] roots w
      (by decide +kernel) (by decide) (by decide) hrun hclean
  · rw [show (commitNew newReceipt).1 = _ from herror] at hkeys
    cases hkeys
  · have hanswer : commitNew newReceipt = (.ok o, after) := hcommit
    rw [hanswer] at hkeys
    have hkey : o.keys = ["1"] := Except.ok.inj hkeys
    rw [Outcome.keys, hidentities, List.map_singleton, List.cons.injEq] at hkey
    rw [Tables.row?, hkey.1] at hrow
    exact ⟨o, after, record, hcommit, hrow, fun f hf => hcomplete f hf (.inl (hrequired f hf))⟩

/-- A ticket passes without a stamp, and is refused for it when it is committed. -/
theorem stamp_missing :
    (((newTicket.walk ⟨office, ⟨.empty⟩, .empty⟩).run.run {}).1.isOk = true ∧
      ((newTicket.walk ⟨office, ⟨.empty⟩, .empty⟩).run.run {}).2.issues = []) ∧
    (commitNew newTicket).1.map Outcome.writes = .error (.conflict (.columnEmpty "tickets" "1" "stamp")) := by
  refine ⟨⟨?_, ?_⟩, ?_⟩
  · decide +kernel
  · decide +kernel
  · decide +kernel

end Music

end NestedResources
