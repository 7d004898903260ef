import NestedResources.Proofs.Read.Includes
import NestedResources.Store.Commit

/-!
# What links and unlinks do

A change of a membership finds both its ends first. What a link writes and what an unlink takes back
depends on the join only.
-/
namespace NestedResources.Progress

variable {s : Schema} {p q : Progress} {c : LinkChange} {r target : Resource} {rel : Relationship}
  {parent child : Identity}

/-- Makes a row a member of a relationship of another. -/
def attach (p : Progress) (r target : Resource) (rel : Relationship) (parent child : Identity)
    (parentRow childRow : Record) : Except Error Progress :=
  match rel.join with
  | .foreignKey own referenced =>
    match childRow.values? referenced with
    | some values => .ok (p.assign r.name parent own values)
    | none => .error (.conflict (.noKeyToLink target.name child.key rel.name))
  | .reverse own held =>
    match parentRow.values? own with
    | some values => .ok (p.assign target.name child held values)
    | none => .error (.conflict (.noKeyToLink r.name parent.key rel.name))
  | .association name own other =>
    let added := p.withTables (p.tables.putLink name (linkOf own other parent child))
    .ok (if (p.tables.linksOf name).contains (linkOf own other parent child) then added
      else { added with writes := p.writes + 1 })

section Attach

variable {own far : List String} {parentRow childRow : Record}

/-- A foreign key of the parent takes the values that the child has. -/
theorem attach_own (hjoin : rel.join = .foreignKey own far) :
    p.attach r target rel parent child parentRow childRow = .ok q ↔
      ∃ values, childRow.values? far = some values ∧ q = p.assign r.name parent own values := by
  simp only [attach, hjoin]
  cases childRow.values? far with
  | none => simp
  | some values => simp [eq_comm]

/-- A foreign key of the child takes the values that the parent has. -/
theorem attach_held (hjoin : rel.join = .reverse own far) :
    p.attach r target rel parent child parentRow childRow = .ok q ↔
      ∃ values, parentRow.values? own = some values ∧ q = p.assign target.name child far values := by
  simp only [attach, hjoin]
  cases parentRow.values? own with
  | none => simp
  | some values => simp [eq_comm]

end Attach

/-- Takes a member back from a relationship, short of deleting it. -/
def detach (p : Progress) (r target : Resource) (rel : Relationship) (parent child : Identity) :
    Progress :=
  match rel.join with
  | .foreignKey own _ => p.clear r.name parent own
  | .reverse _ held => if rel.cascade = .detach then p.clear target.name child held else p
  | .association name own other =>
    if (p.tables.linksOf name).contains (linkOf own other parent child) then
      { p.withTables (p.tables.filterLinks name (· ≠ linkOf own other parent child)) with
        writes := p.writes + 1 }
    else p

/-- The two ends of a change of a membership. -/
structure Ends (s : Schema) (p : Progress) (c : LinkChange) (r target : Resource) (rel : Relationship)
    (parent child : Identity) : Prop where
  resource : s.resource? c.resource = some r
  relationship : r.relationship? c.relationship = some rel
  target : s.target? rel = some target
  parent : p.resolve c.parent = .ok parent
  child : p.resolve c.child = .ok child

/-- Whether the members of a relationship of a row have the key of an entity among them. -/
def isMember (p : Progress) (s : Schema) (r target : Resource) (rel : Relationship) (parentRow : Record)
    (child : Identity) : Bool :=
  (p.tables.members s r parentRow rel).any fun member =>
    (target.identityOf? member).any (·.key = child.key)

theorem Ends.addMember (h : Ends s p c r target rel parent child) {parentRow childRow : Record}
    (hparent : p.tables.row? r.name parent = some parentRow)
    (hchild : p.tables.row? target.name child = some childRow) :
    p.addMember s c = p.attach r target rel parent child parentRow childRow := by
  unfold Progress.addMember
  rw [Schema.require_eq_ok.2 h.resource]
  simp only [bind, Except.bind, Resource.requireRelationship_eq_ok.2 h.relationship,
    Schema.require_eq_ok.2 h.target, h.parent, h.child, hparent, hchild]
  unfold attach
  cases rel.join with
  | foreignKey own referenced => rfl
  | reverse own held => rfl
  | association name own other =>
    dsimp only
    split <;> rfl

theorem addMember_eq_ok (h : p.addMember s c = .ok q) :
    ∃ r target rel parent child parentRow childRow, Ends s p c r target rel parent child ∧
      p.tables.row? r.name parent = some parentRow ∧ p.tables.row? target.name child = some childRow ∧
      p.attach r target rel parent child parentRow childRow = .ok q := by
  have hok := h
  obtain ⟨r, hr, h⟩ := Except.bind_eq_ok.1 h
  obtain ⟨rel, hrel, h⟩ := Except.bind_eq_ok.1 h
  obtain ⟨target, htarget, h⟩ := Except.bind_eq_ok.1 h
  obtain ⟨parent, hparent, h⟩ := Except.bind_eq_ok.1 h
  obtain ⟨child, hchild, h⟩ := Except.bind_eq_ok.1 h
  have hends : Ends s p c r target rel parent child :=
    ⟨Schema.require_eq_ok.1 hr, Resource.requireRelationship_eq_ok.1 hrel,
      Schema.require_eq_ok.1 htarget, hparent, hchild⟩
  dsimp only at h
  split at h
  · cases h
  · cases h
  · rename_i parentRow childRow hparentRow hchildRow
    exact ⟨r, target, rel, parent, child, parentRow, childRow, hends, hparentRow, hchildRow,
      (hends.addMember hparentRow hchildRow).symm.trans hok⟩

/-- A change has one pair of ends. -/
theorem Ends.unique {r' target' : Resource} {rel' : Relationship} {parent' child' : Identity}
    (h : Ends s p c r target rel parent child) (k : Ends s p c r' target' rel' parent' child') :
    r' = r ∧ target' = target ∧ rel' = rel ∧ parent' = parent ∧ child' = child := by
  obtain rfl : r' = r := Option.some.inj (k.resource.symm.trans h.resource)
  obtain rfl : rel' = rel := Option.some.inj (k.relationship.symm.trans h.relationship)
  exact ⟨rfl, Option.some.inj (k.target.symm.trans h.target), rfl, Except.ok.inj (k.parent.symm.trans h.parent),
    Except.ok.inj (k.child.symm.trans h.child)⟩

theorem Ends.addMember_eq_ok (h : Ends s p c r target rel parent child) (hok : p.addMember s c = .ok q) :
    ∃ parentRow childRow, p.tables.row? r.name parent = some parentRow ∧
      p.tables.row? target.name child = some childRow ∧
      p.attach r target rel parent child parentRow childRow = .ok q := by
  obtain ⟨r', target', rel', parent', child', parentRow, childRow, hends, hparent, hchild, hattach⟩ :=
    Progress.addMember_eq_ok hok
  obtain ⟨rfl, rfl, rfl, rfl, rfl⟩ := h.unique hends
  exact ⟨parentRow, childRow, hparent, hchild, hattach⟩

theorem Ends.dropMember (h : Ends s p c r target rel parent child) {parentRow : Record}
    (hparent : p.tables.row? r.name parent = some parentRow) :
    p.dropMember s c = .ok (if p.isMember s r target rel parentRow child then
      if rel.cascade = .delete then (p.detach r target rel parent child).removeEntity s target child
      else p.detach r target rel parent child
    else p) := by
  unfold Progress.dropMember
  rw [Schema.require_eq_ok.2 h.resource]
  simp only [bind, Except.bind, Resource.requireRelationship_eq_ok.2 h.relationship,
    Schema.require_eq_ok.2 h.target, h.parent, h.child, hparent]
  unfold isMember detach
  split <;> rfl

theorem dropMember_eq_ok (h : p.dropMember s c = .ok q) :
    ∃ r target rel parent child parentRow, Ends s p c r target rel parent child ∧
      p.tables.row? r.name parent = some parentRow ∧
      q = if p.isMember s r target rel parentRow child then
        if rel.cascade = .delete then (p.detach r target rel parent child).removeEntity s target child
        else p.detach r target rel parent child
      else p := by
  have hok := h
  obtain ⟨r, hr, h⟩ := Except.bind_eq_ok.1 h
  obtain ⟨rel, hrel, h⟩ := Except.bind_eq_ok.1 h
  obtain ⟨target, htarget, h⟩ := Except.bind_eq_ok.1 h
  obtain ⟨parent, hparent, h⟩ := Except.bind_eq_ok.1 h
  obtain ⟨child, hchild, h⟩ := Except.bind_eq_ok.1 h
  have hends : Ends s p c r target rel parent child :=
    ⟨Schema.require_eq_ok.1 hr, Resource.requireRelationship_eq_ok.1 hrel,
      Schema.require_eq_ok.1 htarget, hparent, hchild⟩
  dsimp only at h
  split at h
  · cases h
  · rename_i parentRow hparentRow
    have hq := (hends.dropMember hparentRow).symm.trans hok
    exact ⟨r, target, rel, parent, child, parentRow, hends, hparentRow, (Except.ok.inj hq).symm⟩

theorem Ends.dropMember_eq_ok (h : Ends s p c r target rel parent child) (hok : p.dropMember s c = .ok q) :
    ∃ parentRow, p.tables.row? r.name parent = some parentRow ∧
      q = if p.isMember s r target rel parentRow child then
        if rel.cascade = .delete then (p.detach r target rel parent child).removeEntity s target child
        else p.detach r target rel parent child
      else p := by
  obtain ⟨r', target', rel', parent', child', parentRow, hends, hparent, hq⟩ := Progress.dropMember_eq_ok hok
  obtain ⟨rfl, rfl, rfl, rfl, rfl⟩ := h.unique hends
  exact ⟨parentRow, hparent, hq⟩

end NestedResources.Progress
