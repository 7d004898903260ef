import Mathlib
import NestedResources.Demo.Music
import NestedResources.Proofs.Schema.Spelling
import NestedResources.Proofs.Store.Exact
import NestedResources.Proofs.Text

/-!
# Entities by condition and by key

Look-ups by identity go two ways: a condition on the identity columns, or the key made of the joined
components. For identities of integers, texts and truth values, all components given, both find the
same row as long as the separator of keys stays out of the texts in all places but one
(`Resource.found_iff_filed`).
-/
namespace NestedResources

/-- An identity with a value of its type for each identity field, all of them of exact types. -/
def Resource.Fits (r : Resource) (i : Identity) : Prop :=
  List.Forall₂ (fun f v => f.type.admits v = true) r.identityFields i.values

/-- The texts of an identity are free of the separator of keys, except at place `k`. -/
def Identity.Separable (k : Nat) (i : Identity) : Prop :=
  ∀ n s, i.values[n]? = some (.str s) → n ≠ k → '/' ∉ s.toList

namespace Identity

variable {type : FieldType} {v w : Json} {i j : Identity} {r : Resource} {k : Nat}

/-- Only texts bring the separator into a key. -/
theorem slash_notMem_componentKey (hv : type.admits v = true)
    (hfree : ∀ s, v = .str s → '/' ∉ s.toList) : '/' ∉ (componentKey v).toList := by
  cases v with
  | num n =>
    obtain ⟨m, hm⟩ := Option.isSome_iff_exists.1 (FieldType.isExact_of_admits hv).2
    rw [Number.toInt64?_eq_some hm]
    exact (Text.isSegment_iff.1 (Numeral.isSegment_toString m)).2
  | str s => exact hfree s rfl
  | bool b => cases b <;> decide
  | null | arr | obj => cases (FieldType.isExact_of_admits hv).2

/-- Values of one exact type are told apart by what they contribute to a key. -/
theorem componentKey_inj (hv : type.admits v = true) (hw : type.admits w = true)
    (h : componentKey v = componentKey w) : v = w := by
  cases type with
  | integer =>
    cases v with
    | num m => cases w with
      | num n =>
        obtain ⟨a, ha⟩ := Option.isSome_iff_exists.1 hv
        obtain ⟨b, hb⟩ := Option.isSome_iff_exists.1 hw
        obtain rfl := Number.toInt64?_eq_some ha
        obtain rfl := Number.toInt64?_eq_some hb
        rw [Int.repr_inj.1 h]
      | _ => cases hw
    | _ => cases hv
  | string =>
    cases v with
    | str s => cases w with
      | str t => exact congrArg Json.str h
      | _ => cases hw
    | _ => cases hv
  | boolean =>
    cases v with
    | bool a => cases w with
      | bool b => cases a <;> cases b <;> first | rfl | exact absurd h (by decide)
      | _ => cases hw
    | _ => cases hv
  | _ => cases hv

theorem freeBut_components (hi : r.Fits i) (hk : i.Separable k) :
    Text.FreeBut '/' k ((i.values.map componentKey).map String.toList) := by
  intro n word hword hn
  rw [List.getElem?_map, List.getElem?_map, Option.map_map] at hword
  obtain ⟨v, hv, rfl⟩ := Option.map_eq_some_iff.1 hword
  obtain ⟨f, -, hadmits⟩ := Except.exists_of_forall₂ (List.forall₂_and_left _ _ |>.2 ⟨fun _ h => h, hi⟩).flip
    (List.mem_of_getElem? hv)
  exact slash_notMem_componentKey hadmits fun s hs => hk n s (hs ▸ hv) hn

/-- Identities of a resource are told apart by their keys. -/
theorem eq_of_key_eq (hi : r.Fits i) (hj : r.Fits j) (hik : i.Separable k) (hjk : j.Separable k)
    (h : i.key = j.key) : i = j := by
  have hlength : i.values.length = j.values.length := hi.length_eq.symm.trans hj.length_eq
  have hjoined := congrArg String.toList h
  rw [key, key, show "/" = String.singleton '/' from rfl, Text.toList_join, Text.toList_join] at hjoined
  have hwords := Text.eq_of_joinWith_eq (by simp [hlength]) (freeBut_components hi hik)
    (freeBut_components hj hjk) hjoined
  have hkeys : i.values.map componentKey = j.values.map componentKey :=
    List.map_injective_iff.2 (fun _ _ => String.toList_inj.1) hwords
  suffices hvalues : i.values = j.values by
    cases i
    cases j
    exact congrArg Identity.mk hvalues
  clear hlength hjoined hwords h hik hjk
  unfold Resource.Fits at hi hj
  generalize r.identityFields = fields at hi hj
  generalize i.values = vs at hi hkeys
  generalize j.values = ws at hj hkeys
  induction hi generalizing ws with
  | nil =>
    cases hj
    rfl
  | cons hv _ ih =>
    cases hj with
    | cons hw hws =>
      obtain ⟨hfirst, hrest⟩ := List.cons.inj hkeys
      rw [componentKey_inj hv hw hfirst, ih _ hws hrest]

end Identity

/-! ## Where identities come from -/

namespace Resource

variable {r : Resource} {i : Identity}

theorem Fits.isExact (h : r.Fits i) : i.IsExact := by
  intro v hv
  obtain ⟨f, hadmits⟩ := Except.exists_of_forall₂ h.flip hv
  exact (FieldType.isExact_of_admits hadmits).2

/-- The identity that a document names fits. -/
theorem fits_of_identityIn? (htypes : ∀ f ∈ r.identityFields, f.type.isExact = true)
    {document : List (String × Json)} (h : r.identityIn? document = some i) : r.Fits i :=
  ((List.forall₂_and_left _ _).2 ⟨htypes, identityIn?_eq_some h⟩).imp
    fun _ _ ⟨htype, _, _, hraw, hcoerce⟩ => FieldType.admits_of_coerce htype hraw hcoerce

/-- The identity that path segments spell fits. -/
theorem fits_of_parseIdentity? (htypes : ∀ f ∈ r.identityFields, f.type.isExact = true)
    {segments : List String} (h : r.parseIdentity? segments = some i) : r.Fits i :=
  ((List.forall₂_and_left _ _).2 ⟨htypes, coerced_of_parseIdentity? h⟩).imp
    fun _ _ ⟨htype, _, _, hcoerce⟩ => FieldType.admits_of_coerce htype (fun h => by cases h) hcoerce

end Resource

/-! ## Two look-ups -/

/-- Every row of a resource is filed under its own identity, and no two keys can be mixed up. -/
def Tables.FiledApart (t : Tables) (r : Resource) (k : Nat) : Prop :=
  ∀ key record, t.rowAt? r.name key = some record →
    ∃ i, r.identityOf? record = some i ∧ i.key = key ∧ r.Fits i ∧ i.Separable k

namespace Resource

variable {schema : Schema} {t : Tables} {r : Resource} {i : Identity} {k : Nat}

/-- The row under the key of an identity is the row of that identity. -/
theorem identityOf?_row? (hfiled : t.FiledApart r k) (hi : r.Fits i) (hk : i.Separable k)
    {record : Record} (h : t.row? r.name i = some record) : r.identityOf? record = some i := by
  obtain ⟨j, hj, hkey, hfits, hjk⟩ := hfiled i.key record h
  rw [hj, Identity.eq_of_key_eq hfits hi hjk hk hkey]

/-- The condition on the identity columns picks the row under the key. -/
theorem passes_identity_iff_row? (schema : Schema) (hfiled : t.FiledApart r k) (hi : r.Fits i)
    (hk : i.Separable k) {record : Record} :
    record ∈ t.rowsOf r.name ∧ t.passes schema r (some (.identity r i)) record = true ↔
      t.row? r.name i = some record := by
  have hpasses : ∀ {j}, r.identityOf? record = some j → r.Fits j →
      (t.passes schema r (some (.identity r i)) record = true ↔ j = i) := fun {j} hj hfits => by
    refine Predicate.passes_identity_iff (fun f hf => ?_) hj hfits.isExact hi.isExact
      hi.length_eq.symm
    obtain ⟨v, hadmits⟩ := Except.exists_of_forall₂ hi hf
    exact (FieldType.isExact_of_admits hadmits).1
  constructor
  · rintro ⟨hmem, hpass⟩
    obtain ⟨key, hkey⟩ := Tables.mem_rowsOf.1 hmem
    obtain ⟨j, hj, rfl, hfits, -⟩ := hfiled key record hkey
    exact (hpasses hj hfits).1 hpass ▸ hkey
  · intro hrow
    exact ⟨Tables.mem_rowsOf.2 ⟨i.key, hrow⟩,
      (hpasses (identityOf?_row? hfiled hi hk hrow) hi).2 rfl⟩

/-- Being a member of the entity under a key is being a member of the entity that the condition on the
identity columns finds. -/
theorem holds_memberOf_iff (hr : schema.resource? r.name = some r) (hfiled : t.FiledApart r k)
    (hi : r.Fits i) (hk : i.Separable k) {rel : Relationship} (hrel : r.relationship? rel.name = some rel)
    (target : Resource) (member : Record) :
    (Predicate.memberOf r.name i rel.name).holds t schema target member = true ↔
      ∃ record, (record ∈ t.rowsOf r.name ∧ t.passes schema r (some (.identity r i)) record = true) ∧
        Predicate.isAmong target member (t.members schema r record rel) = true := by
  simp only [passes_identity_iff_row? schema hfiled hi hk]
  rw [Predicate.holds, hr]
  simp only [hrel]
  cases t.row? r.name i <;> simp

/-- Entities are found alike by the condition on their identity columns and by their keys, and what is
found has the identity that was asked for. This holds of every identity of exact values, of which
documents and path segments spell no others. -/
theorem found_iff_filed (hr : schema.resource? r.name = some r)
    (htypes : ∀ f ∈ r.identityFields, f.type.isExact = true) (hfiled : t.FiledApart r k) :
    (∀ i, r.Fits i → i.Separable k →
      (∀ record, record ∈ t.rowsOf r.name ∧ t.passes schema r (some (.identity r i)) record = true ↔
        t.row? r.name i = some record) ∧
      (∀ record, t.row? r.name i = some record → r.identityOf? record = some i) ∧
      ∀ rel target member, r.relationship? rel.name = some rel →
        ((Predicate.memberOf r.name i rel.name).holds t schema target member = true ↔
          ∃ record, (record ∈ t.rowsOf r.name ∧
              t.passes schema r (some (.identity r i)) record = true) ∧
            Predicate.isAmong target member (t.members schema r record rel) = true)) ∧
    (∀ segments i, r.parseIdentity? segments = some i → r.Fits i) ∧
    ∀ members i, r.identityIn? members = some i → r.Fits i := by
  refine ⟨fun i hi hk => ⟨fun record => ?_, fun record hrow => ?_, fun rel target member hrel => ?_⟩,
    fun segments i => fits_of_parseIdentity? htypes, fun members i => fits_of_identityIn? htypes⟩
  · exact passes_identity_iff_row? schema hfiled hi hk
  · exact identityOf?_row? hfiled hi hk hrow
  · exact holds_memberOf_iff hr hfiled hi hk hrel target member

end Resource

namespace Music

/-- Discs by label and number. -/
def discs : Resource where
  name := "discs"
  identity := ["label", "number"]
  fields := [field "label" .string, field "number" .integer]

def discSchema : Schema where
  table := .ofList [("discs", discs)]
  named := by decide +kernel
  faultless := by decide +kernel

def disc : Record := .ofList [("label", .str "4AD/Beggars"), ("number", .int 12)]

def discTables : Tables := Tables.empty.putRow "discs" "4AD/Beggars/12" disc

theorem filedApart_discs : discTables.FiledApart discs 0 := by
  intro key record hrow
  by_cases hkey : key = "4AD/Beggars/12"
  · subst hkey
    rw [show discs.name = "discs" from rfl, discTables, Tables.rowAt?_putRow_self] at hrow
    cases hrow
    refine ⟨⟨[.str "4AD/Beggars", .int 12]⟩, rfl, rfl, .cons rfl (.cons rfl .nil), fun n s hs hn => ?_⟩
    match n with
    | 0 => exact absurd rfl hn
    | 1 => cases hs
    | n + 2 => cases hs
  · rw [show discs.name = "discs" from rfl, discTables, Tables.rowAt?_putRow_of_key_ne _ _ _ hkey] at hrow
    cases hrow

theorem disc_found_iff_filed : ∃ i, discs.parseIdentity? ["4AD/Beggars", " +12"] = some i ∧
    discTables.row? "discs" i = some disc ∧ discs.identityOf? disc = some i ∧
    disc ∈ discTables.rowsOf "discs" ∧
    discTables.passes discSchema discs (some (.identity discs i)) disc = true := by
  have hdiscs : discSchema.resource? discs.name = some discs := by decide +kernel
  obtain ⟨hfound, hparsed, -⟩ := Resource.found_iff_filed hdiscs (by decide +kernel) filedApart_discs
  have hspelt : discs.parseIdentity? ["4AD/Beggars", " +12"] = some ⟨[.str "4AD/Beggars", .int 12]⟩ := rfl
  have hseparable : Identity.Separable 0 ⟨[.str "4AD/Beggars", .int 12]⟩ := by
    intro n s hs hn
    match n with
    | 0 => exact absurd rfl hn
    | 1 => cases hs
    | n + 2 => cases hs
  obtain ⟨hiff, hown, -⟩ := hfound _ (hparsed _ _ hspelt) hseparable
  have hrow : discTables.row? "discs" ⟨[.str "4AD/Beggars", .int 12]⟩ = some disc := rfl
  exact ⟨_, hspelt, hrow, hown disc hrow, (hiff disc).2 hrow⟩

/-- The offers that hold the factor of a tier. -/
def tierOffers : Relationship where
  name := "offers"
  target := "offers"
  cardinality := .oneToMany
  join := .reverse ["factor"] ["tier"]

/-- Price tiers by their factor. -/
def tiers : Resource where
  name := "tiers"
  identity := ["factor"]
  fields := [field "factor" .number]
  relationships := [tierOffers]

def offers : Resource where
  name := "offers"
  identity := ["offer_id"]
  fields := [field "offer_id" .integer, { field "tier" .number with optional := true }]

def tierSchema : Schema where
  table := .ofList [("offers", offers), ("tiers", tiers)]
  named := by decide +kernel
  faultless := by decide +kernel

def freeTier : Record := .ofList [("factor", .int 0)]

def openOffer : Record := .ofList [("offer_id", .int 7), ("tier", .int 0)]

/-- One tier, written with the integer 0, and an offer in it. -/
def tierTables : Tables :=
  (Tables.empty.putRow "tiers" "0" freeTier).putRow "offers" "7" openOffer

/-- The path of the tier spells the number 0.0, which equals the integer but has another key: the tier is
found by its condition and not by the key, and so it has no offers. -/
theorem tier_found_not_filed : tierTables.Filed tierSchema ∧
    ∃ i, tiers.parseIdentity? ["0"] = some i ∧
      tierTables.passes tierSchema tiers (some (.identity tiers i)) freeTier = true ∧
      (tierTables.row? "tiers" i).isNone = true ∧
      (Predicate.memberOf "tiers" ⟨[.int 0]⟩ "offers").holds tierTables tierSchema offers openOffer
        = true ∧
      (Predicate.memberOf "tiers" i "offers").holds tierTables tierSchema offers openOffer = false := by
  refine ⟨(Tables.filed_empty _).putRow (fun r hr => ?_) |>.putRow fun r hr => ?_, ?_⟩
  · obtain rfl : r = tiers := by
      have htiers : tierSchema.resource? "tiers" = some tiers := by decide +kernel
      exact Option.some.inj (hr.symm.trans htiers)
    exact ⟨⟨[.int 0]⟩, rfl, rfl⟩
  · obtain rfl : r = offers := by
      have hoffers : tierSchema.resource? "offers" = some offers := by decide +kernel
      exact Option.some.inj (hr.symm.trans hoffers)
    exact ⟨⟨[.int 7]⟩, rfl, rfl⟩
  · have hruns : ((tiers.parseIdentity? ["0"]).any fun i =>
        tierTables.passes tierSchema tiers (some (.identity tiers i)) freeTier
          && (tierTables.row? "tiers" i).isNone
          && (Predicate.memberOf "tiers" ⟨[.int 0]⟩ "offers").holds tierTables tierSchema offers openOffer
          && !(Predicate.memberOf "tiers" i "offers").holds tierTables tierSchema offers openOffer)
        = true := by decide +kernel
    obtain ⟨i, hi, hfacts⟩ := (Option.any_eq_true _ _).1 hruns
    simp only [Bool.and_eq_true, Bool.not_eq_true'] at hfacts
    obtain ⟨⟨⟨hpasses, hnone⟩, hmember⟩, hlost⟩ := hfacts
    exact ⟨i, hi, hpasses, hnone, hmember, hlost⟩

end Music

end NestedResources
