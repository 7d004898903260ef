import NestedResources.Proofs.Query.Refusals
import NestedResources.Proofs.Store.Failures
import NestedResources.Proofs.Write.Lookup

/-!
# Writing refuses no method

Walks and commits fail for many reasons. That a gate refuses a change is one of them, that the method is
refused is not.
-/
namespace NestedResources

/-! ## Commits -/

theorem Store.tolerant_apply (schema : Schema) (s : Store) (plan : Plan) : Tolerant (s.apply schema plan) := by
  intro e h
  rcases Store.apply_eq_error h with ⟨fault, rfl⟩ | ⟨_, _, _, _, -, -, hfails⟩
  · rfl
  · cases hfails <;> rfl

theorem Serving.tolerant_settle (schema : Schema) (s : Store) (roots : List EntityRef) (w : Walk) :
    Tolerant (settle schema s roots w) := by
  unfold settle
  split
  · exact .bind (s.tolerant_apply schema w.plan) fun _ => tolerant_pure _
  · simp [Error.refusesMethod]

/-! ## Walks -/

namespace Walking

variable {α β : Type}

/-- A part of a walk that fails for other reasons than the method, if at all. -/
def Tolerates (m : Walking α) : Prop := ∀ w, Tolerant (m.run.run w).1

variable {m : Walking α}

@[grind ←] theorem Tolerates.bind {f : α → Walking β} (hm : m.Tolerates) (hf : ∀ a, (f a).Tolerates) :
    (m >>= f).Tolerates := by
  intro w
  rcases hrun : m.run.run w with ⟨_ | a, between⟩
  · rw [bind_of_error hrun]
    exact tolerant_error.2 (hm w _ (congrArg Prod.fst hrun))
  · rw [bind_of_ok hrun]
    exact hf a between

@[grind .] theorem tolerates_pure (a : α) : (pure a : Walking α).Tolerates := fun _ => tolerant_ok a

@[grind =] theorem tolerates_throw {e : Error} :
    (throw e : Walking α).Tolerates ↔ e.refusesMethod = false :=
  ⟨fun h => tolerant_error.1 (h {}), fun h _ => tolerant_error.2 h⟩

@[grind =] theorem tolerates_liftM {x : Except Error α} : (liftM x : Walking α).Tolerates ↔ Tolerant x := by
  simp [Tolerates]

@[grind .] theorem tolerates_get : (get : Walking Walk).Tolerates := fun w => tolerant_ok w

@[grind .] theorem tolerates_modify (f : Walk → Walk) : (modify f : Walking Unit).Tolerates :=
  fun _ => tolerant_ok ()

@[grind .] theorem tolerates_command (c : Command) : (command c).Tolerates := tolerates_modify _

@[grind .] theorem tolerates_setMember (key : LinkKey) (value : Bool) : (setMember key value).Tolerates :=
  tolerates_modify _

@[grind .] theorem tolerates_learn (resource key : String) (k : Known) : (learn resource key k).Tolerates :=
  tolerates_modify _

@[grind .] theorem tolerates_addIssues (issues : List Issue) : (addIssues issues).Tolerates :=
  tolerates_modify _

@[grind .] theorem tolerates_issue (path : String) (d : Defect) : (issue path d).Tolerates :=
  tolerates_modify _

@[grind ←] theorem Tolerates.forM {f : α → Walking Unit} (h : ∀ a, (f a).Tolerates) (items : List α) :
    (items.forM f).Tolerates := by
  induction items with
  | nil => exact tolerates_pure ()
  | cons a items ih => exact (h a).bind fun _ => ih

@[grind ←] theorem Tolerates.foldlM {f : β → α → Walking β} (h : ∀ b a, (f b a).Tolerates) (items : List α)
    (b : β) : (items.foldlM f b).Tolerates := by
  induction items generalizing b with
  | nil => exact tolerates_pure b
  | cons a items ih =>
    rw [List.foldlM_cons]
    exact (h b a).bind fun c => ih c

end Walking

namespace WalkSite

open Walking

variable (site : WalkSite)

@[grind .] theorem tolerates_permit (gate : GateRef × Gate) (change : Change) :
    (site.permit gate change).Tolerates := by
  unfold permit
  grind

@[grind .] theorem tolerates_lookup (r : Resource) (i : Identity) : (site.lookup r i).Tolerates := by
  unfold lookup
  refine .bind tolerates_get fun w => ?_
  split
  · grind
  · refine .bind (tolerates_liftM.2 (site.registry.tolerant_required _ r)) fun required => ?_
    refine .bind (tolerates_liftM.2 (site.tables.tolerant_fetch _ _)) fun rows => ?_
    split
    · grind
    · split
      · refine .bind (tolerates_liftM.2 (site.tables.tolerant_count _ _ _)) fun hidden => ?_
        grind
      · grind

@[grind .] theorem tolerates_isMember (p : Parent) (target : Resource) (child : EntityRef) :
    (site.isMember p target child).Tolerates := by
  unfold isMember
  refine .bind tolerates_get fun w => ?_
  grind

@[grind .] theorem tolerates_currentMembers (p : Parent) (target : Resource) :
    (site.currentMembers p target).Tolerates := by
  unfold currentMembers
  grind

@[grind .] theorem tolerates_permitRelationship (p : Parent) (target : Resource) (child : Option Record)
    (action : Action) (value : Option Json) :
    (site.permitRelationship p target child action value).Tolerates := by
  unfold permitRelationship
  grind

@[grind .] theorem tolerates_planUnlink (p : Parent) (target : Resource) (child : Known) (value : Option Json) :
    (site.planUnlink p target child value).Tolerates := by
  unfold planUnlink
  grind

@[grind .] theorem tolerates_unlinkAbsent (p : Parent) (target : Resource) (keep : List String) :
    (site.unlinkAbsent p target keep).Tolerates := by
  have hdisplace : ∀ member, (site.displace p target keep member).Tolerates := by
    unfold displace
    grind
  unfold unlinkAbsent
  grind

@[grind .] theorem tolerates_link (p : Parent) (target : Resource) (child : Known) (explicit : Bool)
    (path : String) (value : Json) : (site.link p target child explicit path value).Tolerates := by
  unfold link
  grind

@[grind .] theorem tolerates_unlink (p : Parent) (target : Resource) (child : Known) (path : String)
    (value : Json) : (site.unlink p target child path value).Tolerates := by
  unfold unlink
  grind

@[grind .] theorem tolerates_planDelete (r : Resource) (known : Known) : (site.planDelete r known).Tolerates := by
  unfold planDelete
  grind

@[grind .] theorem tolerates_openObject (r : Resource) (path : String) (position : Position)
    (members : List (String × Json)) : (site.openObject r path position members).Tolerates := by
  have hread : ∀ j, Tolerant (DocumentOp.read j) := by
    unfold DocumentOp.read
    grind
  have hop : Tolerant (DocumentOp.ofMembers? members) := by
    unfold DocumentOp.ofMembers?
    grind
  have hidentity : (identityOf r path position members).Tolerates := by
    unfold identityOf
    grind
  unfold openObject
  refine .bind (tolerates_liftM.2 hop) fun op => .bind hidentity fun identity => ?_
  repeat' split
  all_goals grind

@[grind .] theorem tolerates_readFields (s : Scope) (members : List (String × Json)) :
    (site.readFields s members).Tolerates := by
  have hread : ∀ values key raw, (site.readField s values key raw).Tolerates := by
    unfold readField
    grind
  unfold readFields
  grind

@[grind .] theorem tolerates_requireFields (s : Scope) (members : List (String × Json)) :
    (requireFields s members).Tolerates := by
  unfold requireFields
  grind

@[grind .] theorem tolerates_place (s : Scope) (members : List (String × Json)) (values : Record) :
    (site.place s members values).Tolerates := by
  unfold place
  grind

@[grind .] theorem tolerates_attach (s : Scope) (op : Option DocumentOp) (members : List (String × Json))
    (reference : EntityRef) : (site.attach s op members reference).Tolerates := by
  unfold attach
  grind

mutual

theorem tolerates_visit (r : Resource) (path : String) (position : Position) (mode : WriteMode) :
    ∀ document : Json, (site.visit r path position mode document).Tolerates
  | .obj members => by
    have hrelationships := fun s reference => tolerates_visitRelationships s reference mode members
    rw [visit]
    refine .bind (site.tolerates_openObject r path position members) fun opened => ?_
    split
    · exact tolerates_pure _
    · refine .bind (site.tolerates_readFields _ members) fun values => ?_
      grind
  | .null | .bool _ | .num _ | .str _ | .arr _ => by
    rw [visit]
    · exact .bind (tolerates_issue _ _) fun _ => tolerates_pure _
    · exact nofun
termination_by document => sizeOf document

theorem tolerates_visitRelationships (s : Scope) (reference : EntityRef) (mode : WriteMode) :
    ∀ members : List (String × Json), (site.visitRelationships s reference mode members).Tolerates
  | [] => by
    rw [visitRelationships]
    exact tolerates_pure ()
  | (key, raw) :: rest => by
    have hrest := tolerates_visitRelationships s reference mode rest
    have hvisit := fun target path parent => tolerates_visit target path (.nested parent) .patch raw
    have hitems := fun items (_ : raw = .arr items) target path parent =>
      tolerates_visitItems target path parent 0 items
    rw [visitRelationships]
    grind
termination_by members => sizeOf members

theorem tolerates_visitItems (target : Resource) (path : String) (parent : Parent) (index : Nat) :
    ∀ items : List Json, (site.visitItems target path parent index items).Tolerates
  | [] => by
    rw [visitItems]
    exact tolerates_pure []
  | item :: rest => by
    rw [visitItems]
    refine .bind (tolerates_visit target _ _ .patch item) fun visited => ?_
    refine .bind (tolerates_visitItems target path parent (index + 1) rest) fun others => ?_
    grind
termination_by items => sizeOf items

end

theorem tolerates_visitRoots (r : Resource) (root : Root) (index : Nat) (items : List Json) :
    (site.visitRoots r root index items).Tolerates := by
  induction items generalizing index with
  | nil => exact tolerates_pure []
  | cons item items ih =>
    exact .bind (site.tolerates_visit r _ _ .patch item) fun _ => .bind (ih _) fun _ => tolerates_pure _

theorem tolerates_require (name : String) :
    (liftM (site.registry.schema.require name) : Walking Resource).Tolerates :=
  tolerates_liftM.2 (tolerant_require _ _)

theorem tolerates_create (resource : String) (document : Json) : (site.create resource document).Tolerates := by
  refine .bind (site.tolerates_require _) fun r => ?_
  split
  · exact .bind (site.tolerates_visitRoots r _ _ _) fun _ => tolerates_pure _
  · exact .bind (site.tolerates_visit r _ _ _ _) fun _ => tolerates_pure _

theorem tolerates_update (resource : String) (i : Identity) (document : Json) (mode : WriteMode) :
    (site.update resource i document mode).Tolerates :=
  .bind (site.tolerates_require _) fun r => .bind (site.tolerates_visit r _ _ _ _) fun _ => tolerates_pure _

theorem tolerates_updateField (resource : String) (i : Identity) (field : String) (value : Json) :
    (site.updateField resource i field value).Tolerates := by
  refine .bind (site.tolerates_require _) fun r => ?_
  have := site.tolerates_update resource i (.obj [(field, value)]) .patch
  grind

theorem tolerates_patchCollection (resource : String) (document : Json) :
    (site.patchCollection resource document).Tolerates := by
  refine .bind (site.tolerates_require _) fun r => ?_
  have := fun items => site.tolerates_visitRoots r .collection 0 items
  grind

theorem tolerates_delete (resource : String) (i : Identity) : (site.delete resource i).Tolerates := by
  refine .bind (site.tolerates_require _) fun r => .bind (site.tolerates_lookup r i) fun known => ?_
  grind

theorem tolerates_deleteWhere (resource : String) (predicate : Option Predicate) :
    (site.deleteWhere resource predicate).Tolerates := by
  refine .bind (site.tolerates_require _) fun r => ?_
  refine .bind (tolerates_liftM.2 (site.registry.tolerant_required _ r)) fun required => ?_
  refine .bind (tolerates_liftM.2 (site.tables.tolerant_fetch _ _)) fun rows => ?_
  exact .bind (.forM (site.tolerates_planDelete r) _) fun _ => tolerates_pure _

end WalkSite

end NestedResources
