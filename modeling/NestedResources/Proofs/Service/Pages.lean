import NestedResources.Proofs.Query.Pages
import NestedResources.Proofs.Read.Windowed
import NestedResources.Proofs.Service.Reads

/-!
# Going through a listing page by page

The pages of a listing up to the last one hold together what the listing finds without a window, in its
order, and each of them tells how many rows there are. Whoever follows the next page from the first one
on sees each of them once and comes to an end (`Service.pages_of_list`).
-/
namespace NestedResources

namespace Service

variable (svc : Service) (ctx : Context) (r : Resource)

/-- Everything that a listing finds, without a window. -/
def listWhole (params : Params) : Serving Collection := do
  svc.ensureAllowed ctx r .get
  let q ← svc.readQuery r params
  svc.collection ctx r { q with window := .unbounded } none

/-- A page of a listing, the next page that it tells of, and so on, at most `steps` pages. -/
def pageThrough (params : Params) (size : UInt64) : Nat → UInt64 → Serving (List Collection)
  | 0, _ => pure []
  | steps + 1, page => do
    let found ← svc.list ctx r (params.onPage size page)
    match found.page.next with
    | none => pure [found]
    | some next => do
      let others ← pageThrough params size steps next
      pure (found :: others)

variable {svc ctx r}

/-- A query finds its items in one order. With any window it answers those inside it, and the number of
all of them. -/
theorem exists_collections {q : Query} {reading : Reading} (h : svc.reading ctx r q none = .ok reading)
    (t : Tables) :
    ∃ items : List Json, items.length ≤ (t.rowsOf r.name).length ∧
      ∀ window, (reading.withWindow window).collection t svc.schema svc.style = .ok
        { items := window.apply items
          available := items.length.toUInt64
          page := .ofWindow window items.length.toUInt64 } := by
  obtain ⟨found, hrequire, hrest⟩ := Except.bind_eq_ok.1 h
  obtain ⟨es, hes, -⟩ := Except.bind_eq_ok.1 hrest
  have hfound := Schema.require_eq_ok.1 hrequire
  have hname : found.name = r.name := Schema.name_of_resource? hfound
  rw [Service.reading, ← hname] at h
  rw [← hname] at hfound
  obtain ⟨records, build, hperm, -, hrows⟩ := Registry.exists_rows_windows t hfound h
  have hresource : reading.resource = found := (Registry.readingOf_of_reading hfound hes h).resource_eq
  refine ⟨records.map (Row.render svc.schema svc.style found reading.selection ∘ build), ?_,
    fun window => ?_⟩
  · rw [List.length_map, hperm.length_eq, ← hname]
    exact List.length_filter_le _ _
  · refine Except.bind_eq_ok.2 ⟨_, hrows window, ?_⟩
    refine Except.bind_eq_ok.2 ⟨records.length, ?_, ?_⟩
    · refine Except.bind_eq_ok.2 ⟨found, Schema.require_eq_ok.2 (hresource ▸ hfound), ?_⟩
      rw [hperm.length_eq, ← List.countP_eq_length_filter, ← hresource]
      rfl
    · rw [← Window.map_apply, ← List.map_map, List.length_map, ← hresource]
      rfl

theorem listWhole_on (params : Params) (d : Desk) :
    (svc.listWhole ctx r params).on d = (do
      svc.ensureAllowed ctx r .get
      let q ← svc.readQuery r params
      let reading ← svc.reading ctx r { q with window := .unbounded } none
      reading.collection d.store.tables svc.schema svc.style, d) := by
  refine Serving.bind_on_of_reads (Serving.liftM_on _ d) fun _ => ?_
  exact Serving.bind_on_of_reads (Serving.liftM_on _ d) fun q => svc.collection_on ctx r _ none d

/-- What is listed on a page, for a query that may be listed. -/
theorem list_onPage {params : Params} {q : Query} {reading : Reading} {d : Desk} {size page : UInt64}
    {answer : Collection} (hallowed : svc.ensureAllowed ctx r .get = .ok ())
    (hq : svc.readQuery r params = .ok q) (hreading : svc.reading ctx r q none = .ok reading)
    (hopen : params.OpenWindow) (hsize : 0 < size) (hpage : 0 < page)
    (hceiling : ∀ c, QuerySite.ceilingOf ⟨svc.schema, svc.limits⟩ r = some c → size ≤ c)
    (hanswer : (reading.withWindow (.ofPage size page)).collection d.store.tables svc.schema svc.style
      = .ok answer) :
    (svc.list ctx r (params.onPage size page)).on d = (.ok answer, d) := by
  rw [list_on]
  refine congrArg (·, d) (Except.bind_eq_ok.2 ⟨(), hallowed, ?_⟩)
  refine Except.bind_eq_ok.2 ⟨_, QuerySite.read_onPage hopen hsize hpage hceiling hq, ?_⟩
  exact Except.bind_eq_ok.2 ⟨_, Registry.reading_withWindow hreading _, hanswer⟩

/-- The page of a list of items that `k` others stand before. -/
def pageAfter (items : List Json) (size : UInt64) (k : Nat) : Collection where
  items := (items.drop (k * size.toNat)).take size.toNat
  available := items.length.toUInt64
  page := .ofWindow (.ofPage size (k + 1).toUInt64) items.length.toUInt64

section

variable {items : List Json} {size : UInt64} {k : Nat}

/-- A page tells its number, the last page, and the next one unless it is the last itself. -/
theorem page_pageAfter (hsize : 0 < size) (hitems : items.length < 2 ^ 64)
    (hk : k < lastPage items.length size.toNat) :
    (pageAfter items size k).page.current.toNat = k + 1 ∧
      (pageAfter items size k).page.last.toNat = lastPage items.length size.toNat ∧
      (pageAfter items size k).page.next
        = if k + 1 < lastPage items.length size.toNat then some (k + 1 + 1).toUInt64 else none := by
  have hn : 0 < size.toNat := UInt64.lt_iff_toNat_lt.1 hsize
  obtain ⟨hnumber, hpage, hoffset⟩ := toNat_page_of_lt_lastPage hn hitems hk
  have havailable : items.length.toUInt64.toNat = items.length := Nat.mod_eq_of_lt hitems
  have hlast : (max 1 (PageInfo.ceilDiv items.length.toUInt64 size)).toNat
      = lastPage items.length size.toNat := by
    rw [PageInfo.toNat_last hsize, havailable]
  rw [pageAfter, PageInfo.ofWindow_ofPage _ hsize hpage (by rwa [hnumber, Nat.add_sub_cancel])]
  refine ⟨hnumber, hlast, ?_⟩
  simp only [UInt64.lt_iff_toNat_lt, hnumber, hlast]
  refine if_congr Iff.rfl (congrArg some ?_) rfl
  rw [← UInt64.toNat_inj]
  simp

/-- Following the next page from a page on goes through all pages from it on and stops behind the last. -/
theorem pageThrough_on {params : Params} {d : Desk} (hsize : 0 < size) (hitems : items.length < 2 ^ 64)
    (hlist : ∀ k < lastPage items.length size.toNat,
      (svc.list ctx r (params.onPage size (k + 1).toUInt64)).on d = (.ok (pageAfter items size k), d))
    (hk : k < lastPage items.length size.toNat) {steps : Nat}
    (hsteps : lastPage items.length size.toNat ≤ k + steps) :
    (svc.pageThrough ctx r params size steps (k + 1).toUInt64).on d
      = (.ok ((List.range' k (lastPage items.length size.toNat - k)).map (pageAfter items size)), d) := by
  induction steps generalizing k with
  | zero => omega
  | succ steps ih =>
    obtain ⟨-, -, hnext⟩ := page_pageAfter hsize hitems hk
    obtain ⟨rest, hrest⟩ : ∃ rest, lastPage items.length size.toNat - k = rest + 1 :=
      Nat.exists_eq_add_one.2 (by omega)
    rw [pageThrough, Serving.bind_on, hlist k hk]
    dsimp only
    rw [hnext, hrest, List.range'_succ, List.map_cons]
    by_cases hmore : k + 1 < lastPage items.length size.toNat
    · rw [if_pos hmore]
      dsimp only
      rw [Serving.bind_on, ih hmore (by omega), ← Nat.sub_sub, hrest]
      rfl
    · rw [if_neg hmore]
      obtain rfl : rest = 0 := by omega
      rfl

end

/-- The pages of a listing up to the last one are, one after the other, the whole listing. Each tells the
same number of rows, and following the next page from the first one on visits each once. The number of
rows of a table is a word. -/
theorem pages_of_list {params : Params} {d : Desk} {size : UInt64} (hopen : params.OpenWindow)
    (hlist : ((svc.list ctx r params).on d).1.isOk = true) (hsize : 0 < size)
    (hceiling : ∀ c, QuerySite.ceilingOf ⟨svc.schema, svc.limits⟩ r = some c → size ≤ c)
    (hcount : (d.store.tables.rowsOf r.name).length < 2 ^ 64) :
    ∃ whole pages, (svc.listWhole ctx r params).on d = (.ok whole, d) ∧ pages ≠ [] ∧
      (∀ k (hk : k < pages.length),
        (svc.list ctx r (params.onPage size (k + 1).toUInt64)).on d = (.ok pages[k], d) ∧
        pages[k].page.current.toNat = k + 1) ∧
      (∀ page ∈ pages, page.available.toNat = whole.items.length ∧ page.page.last.toNat = pages.length) ∧
      pages.flatMap (·.items) = whole.items ∧
      ∀ steps, pages.length ≤ steps → (svc.pageThrough ctx r params size steps 1).on d = (.ok pages, d) := by
  rw [list_on] at hlist
  obtain ⟨first, hfirst⟩ := Except.exists_of_isOk hlist
  obtain ⟨⟨⟩, hallowed, hfirst⟩ := Except.bind_eq_ok.1 hfirst
  obtain ⟨q, hq, hfirst⟩ := Except.bind_eq_ok.1 hfirst
  obtain ⟨reading, hreading, -⟩ := Except.bind_eq_ok.1 hfirst
  obtain ⟨items, hlength, hcollection⟩ := exists_collections hreading d.store.tables
  have hitems : items.length < 2 ^ 64 := Nat.lt_of_le_of_lt hlength hcount
  have hn : 0 < size.toNat := UInt64.lt_iff_toNat_lt.1 hsize
  have hpages (k : Nat) (hk : k < lastPage items.length size.toNat) :
      (svc.list ctx r (params.onPage size (k + 1).toUInt64)).on d = (.ok (pageAfter items size k), d) := by
    obtain ⟨hnumber, hpage, hoffset⟩ := toNat_page_of_lt_lastPage hn hitems hk
    refine list_onPage hallowed hq hreading hopen hsize hpage hceiling ((hcollection _).trans ?_)
    rw [Window.apply_ofPage hpage (by rwa [hnumber, Nat.add_sub_cancel]), hnumber, Nat.add_sub_cancel]
    rfl
  have hfollow (steps : Nat) (hsteps : lastPage items.length size.toNat ≤ steps) :
      (svc.pageThrough ctx r params size steps 1).on d
        = (.ok ((List.range (lastPage items.length size.toNat)).map (pageAfter items size)), d) := by
    have hall := pageThrough_on hsize hitems hpages (lastPage_pos _ _) (Nat.le_trans hsteps (Nat.le_add_left steps 0))
    rwa [Nat.sub_zero, ← List.range_eq_range'] at hall
  refine ⟨⟨items, items.length.toUInt64, .ofWindow .unbounded items.length.toUInt64⟩,
    (List.range (lastPage items.length size.toNat)).map (pageAfter items size), ?_, ?_, ?_, ?_, ?_, ?_⟩
  · rw [listWhole_on]
    refine congrArg (·, d) (Except.bind_eq_ok.2 ⟨(), hallowed, Except.bind_eq_ok.2 ⟨q, hq, ?_⟩⟩)
    exact Except.bind_eq_ok.2 ⟨_, Registry.reading_withWindow hreading _, hcollection .unbounded⟩
  · exact List.ne_nil_of_length_pos (by simpa using lastPage_pos _ _)
  · intro k hk
    rw [List.length_map, List.length_range] at hk
    simp only [List.getElem_map, List.getElem_range]
    exact ⟨hpages k hk, (page_pageAfter hsize hitems hk).1⟩
  · intro page hpage
    obtain ⟨k, hk, rfl⟩ := List.mem_map.1 hpage
    rw [List.length_map, List.length_range]
    exact ⟨Nat.mod_eq_of_lt hitems, (page_pageAfter hsize hitems (List.mem_range.1 hk)).2.1⟩
  · rw [List.flatMap_map]
    exact flatMap_pages hn items
  · intro steps hsteps
    rw [List.length_map, List.length_range] at hsteps
    exact hfollow steps hsteps

end Service

namespace Music

/-- The staff, at most five on a page. -/
def pagedStaff : Service := { registry := { staff with gates := [] }, limits := { pageCeiling := some 5 } }

def byName : Params := ⟨[("sort", "last_name"), ("embeds", "manager")]⟩

theorem pages_of_staff : ∃ whole pages,
    (pagedStaff.listWhole .empty employees byName).on ⟨⟨staffTables employeeRows, 0⟩, []⟩
      = (.ok whole, ⟨⟨staffTables employeeRows, 0⟩, []⟩) ∧
    pages.flatMap (·.items) = whole.items ∧
    (pagedStaff.pageThrough .empty employees byName 3 (pages.length + 1) 1).on ⟨⟨staffTables employeeRows, 0⟩, []⟩
      = (.ok pages, ⟨⟨staffTables employeeRows, 0⟩, []⟩) := by
  have hopen : byName.OpenWindow := by
    unfold Params.OpenWindow
    decide +kernel
  have hlist : ((pagedStaff.list .empty employees byName).on
      ⟨⟨staffTables employeeRows, 0⟩, []⟩).1.isOk = true := by decide +kernel
  have hcount : ((staffTables employeeRows).rowsOf employees.name).length < 2 ^ 64 := by decide +kernel
  obtain ⟨whole, pages, hwhole, -, -, -, hall, hfollow⟩ := Service.pages_of_list hopen hlist
    (by decide : (0 : UInt64) < 3) (fun c hc => Option.some.inj hc ▸ by decide) hcount
  exact ⟨whole, pages, hwhole, hall, hfollow _ (Nat.le_succ _)⟩

end Music

end NestedResources
