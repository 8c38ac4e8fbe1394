import Mathlib.Data.List.Sort

/-!
Keyset pagination.

Rows are listed in descending order of a key, a page at a time. The cursor of
a page is the key of the last row of the page before, and a page holds the
first rows behind its cursor. Between two pages the table may have changed.

What is listed does not depend on how: a walk to the last page lists, in
descending order and once each, every row that was there all the time.
-/

namespace PureplayIngest.Lib.Keyset

variable {α κ : Type*} [LinearOrder κ] (key : α → κ)

/-- The rows behind a cursor; all of them when there is none. -/
def behind (cursor : Option κ) (rows : List α) : List α :=
  rows.filter fun row => ∀ c ∈ cursor, key row < c

def descending (rows : List α) : List α := rows.insertionSort fun a b => key b ≤ key a

def page (limit : ℕ) (cursor : Option κ) (rows : List α) : List α :=
  (descending key (behind key cursor rows)).take limit

/-- The pages of a walk, and the rows of the table at each of its requests.
The walk goes on while there are more rows than a page holds. -/
inductive Walk (limit : ℕ) : Option κ → List (List α) → List (List α) → Prop
  | last {cursor : Option κ} {rows : List α} (hall : (behind key cursor rows).length ≤ limit) :
      Walk limit cursor [rows] [page key limit cursor rows]
  | next {cursor : Option κ} {rows : List α} {last : α} {tables pages : List (List α)}
      (hmore : limit < (behind key cursor rows).length)
      (hlast : (page key limit cursor rows).getLast? = some last)
      (tail : Walk limit (some (key last)) tables pages) :
      Walk limit cursor (rows :: tables) (page key limit cursor rows :: pages)

section Page

variable {key} {limit : ℕ} {cursor : Option κ} {rows : List α} {x last : α}

theorem mem_behind : x ∈ behind key cursor rows ↔ x ∈ rows ∧ ∀ c ∈ cursor, key x < c := by
  simp only [behind, List.mem_filter, decide_eq_true_eq]

theorem behind_none : behind key none rows = rows :=
  List.filter_eq_self.mpr fun _ _ => decide_eq_true fun _ hc => absurd hc (by simp)

theorem mem_descending : x ∈ descending key rows ↔ x ∈ rows := List.mem_insertionSort _

theorem length_descending : (descending key rows).length = rows.length :=
  List.length_insertionSort _ _

theorem pairwise_descending (hkeys : (rows.map key).Nodup) :
    (descending key rows).Pairwise fun a b => key b < key a := by
  have : Std.Total fun a b : α => key b ≤ key a := ⟨fun a b => le_total (key b) (key a)⟩
  have : IsTrans α fun a b : α => key b ≤ key a := ⟨fun a b c hab hbc => le_trans hbc hab⟩
  have hsorted : (descending key rows).Pairwise fun a b => key b ≤ key a :=
    List.pairwise_insertionSort _ rows
  have hperm : ((descending key rows).map key).Nodup :=
    ((List.perm_insertionSort _ rows).map key).nodup_iff.mpr hkeys
  have hne : (descending key rows).Pairwise fun a b => key a ≠ key b := List.pairwise_map.mp hperm
  exact (hsorted.and hne).imp fun ⟨hle, hne⟩ => lt_of_le_of_ne hle hne.symm

theorem nodup_behind (hkeys : (rows.map key).Nodup) : ((behind key cursor rows).map key).Nodup :=
  hkeys.sublist (List.filter_sublist.map key)

theorem mem_behind_of_page (h : x ∈ page key limit cursor rows) : x ∈ behind key cursor rows :=
  mem_descending.mp (List.mem_of_mem_take h)

theorem pairwise_page (hkeys : (rows.map key).Nodup) :
    (page key limit cursor rows).Pairwise fun a b => key b < key a :=
  (pairwise_descending (nodup_behind hkeys)).sublist (List.take_sublist _ _)

/-- A page that holds all rows behind the cursor leaves none out. -/
theorem mem_page_of_all (hall : (behind key cursor rows).length ≤ limit)
    (hx : x ∈ behind key cursor rows) : x ∈ page key limit cursor rows := by
  rw [page, List.take_of_length_le (by rw [length_descending]; exact hall)]
  exact mem_descending.mpr hx

/-- A row a page leaves out is behind the last row of the page. -/
theorem mem_page_or_lt (hkeys : (rows.map key).Nodup)
    (hlast : (page key limit cursor rows).getLast? = some last)
    (hx : x ∈ behind key cursor rows) : x ∈ page key limit cursor rows ∨ key x < key last := by
  have hsplit : (descending key (behind key cursor rows)).Pairwise fun a b => key b < key a :=
    pairwise_descending (nodup_behind hkeys)
  have hmem : x ∈ descending key (behind key cursor rows) := mem_descending.mpr hx
  rw [← List.take_append_drop limit (descending key (behind key cursor rows))] at hsplit hmem
  obtain hmem | hmem := List.mem_append.mp hmem
  · exact .inl hmem
  · exact .inr ((List.pairwise_append.mp hsplit).2.2 last (List.mem_of_getLast? hlast) x hmem)

/-- No row of a page is behind the last one. -/
theorem le_of_mem_page (hkeys : (rows.map key).Nodup)
    (hlast : (page key limit cursor rows).getLast? = some last)
    (hx : x ∈ page key limit cursor rows) : key last ≤ key x := by
  obtain ⟨front, hfront⟩ := List.getLast?_eq_some_iff.mp hlast
  have hpage : (page key limit cursor rows).Pairwise fun a b => key b < key a := pairwise_page hkeys
  rw [hfront] at hpage hx
  obtain hx | hx := List.mem_append.mp hx
  · exact ((List.pairwise_append.mp hpage).2.2 x hx last (List.mem_singleton_self last)).le
  · exact (congrArg key (List.mem_singleton.mp hx)).ge

/-- A page is the first one of the rows behind its cursor. -/
theorem page_none_behind :
    page key limit none (behind key cursor rows) = page key limit cursor rows := by
  rw [page, behind_none, page]

/-- A page of rows that are only looked at through a map. -/
theorem page_map {β : Type*} (f : β → α) (rows : List β) :
    page key limit cursor (rows.map f) = (page (fun b => key (f b)) limit cursor rows).map f := by
  have hsort (rows : List β) : descending key (rows.map f) =
      (descending (fun b => key (f b)) rows).map f :=
    (List.map_insertionSort (r := fun a b => key (f b) ≤ key (f a)) (s := fun a b => key b ≤ key a)
      f rows fun a _ b _ => Iff.rfl).symm
  rw [page, page, behind, behind, List.filter_map, hsort, List.map_take]
  rfl

/-- How many rows a query for one more than a page returns tells whether there are more. -/
theorem lt_length_page_succ :
    limit < (page key (limit + 1) cursor rows).length ↔
      limit < (behind key cursor rows).length := by
  rw [page, List.length_take, length_descending]
  omega

theorem take_page_succ :
    (page key (limit + 1) cursor rows).take limit = page key limit cursor rows := by
  rw [page, List.take_take, Nat.min_eq_left (Nat.le_succ limit), page]

theorem page_succ_of_all (hall : ¬ limit < (behind key cursor rows).length) :
    page key (limit + 1) cursor rows = page key limit cursor rows := by
  have hle : (descending key (behind key cursor rows)).length ≤ limit := by
    rw [length_descending]
    exact Nat.not_lt.mp hall
  rw [page, page, List.take_of_length_le hle, List.take_of_length_le (Nat.le_succ_of_le hle)]

theorem page_ne_nil (hlimit : 0 < limit) (hmore : limit < (behind key cursor rows).length) :
    page key limit cursor rows ≠ [] := by
  rw [← List.length_pos_iff, page, List.length_take, length_descending]
  omega

/-- With the cursor at a row of the page there are fewer rows left. -/
theorem length_behind_lt (hx : x ∈ page key limit cursor rows) :
    (behind key (some (key x)) rows).length < (behind key cursor rows).length := by
  have hxb := mem_behind.mp (mem_behind_of_page hx)
  have hsub :
      behind key (some (key x)) rows = behind key (some (key x)) (behind key cursor rows) := by
    simp only [behind, List.filter_filter]
    refine List.filter_congr fun row _ => ?_
    simp only [Option.mem_some_iff, forall_eq', ← Bool.decide_and]
    exact decide_eq_decide.mpr
      ⟨fun h => ⟨h, fun c hc => h.trans (hxb.2 c hc)⟩, fun h => h.1⟩
  rw [hsub]
  exact List.length_filter_lt_length_iff_exists.mpr
    ⟨x, mem_behind_of_page hx, by simp⟩

end Page

namespace Walk

variable {key} {limit : ℕ} {cursor : Option κ} {tables pages : List (List α)} {x : α}

theorem before_cursor (h : Walk key limit cursor tables pages) :
    ∀ x ∈ pages.flatten, ∀ c ∈ cursor, key x < c := by
  induction h with
  | last hall =>
      intro x hx
      rw [List.flatten_cons, List.flatten_nil, List.append_nil] at hx
      exact (mem_behind.mp (mem_behind_of_page hx)).2
  | next hmore hlast tail ih =>
      intro x hx c hc
      have hpage := mem_behind.mp (mem_behind_of_page (List.mem_of_getLast? hlast))
      obtain hx | hx := List.mem_append.mp (List.flatten_cons ▸ hx)
      · exact (mem_behind.mp (mem_behind_of_page hx)).2 c hc
      · exact (ih x hx _ rfl).trans (hpage.2 c hc)

/-- All pages together are in strictly descending order. -/
theorem pairwise (h : Walk key limit cursor tables pages)
    (hkeys : ∀ rows ∈ tables, (rows.map key).Nodup) :
    pages.flatten.Pairwise fun a b => key b < key a := by
  induction h with
  | last hall =>
      rw [List.flatten_cons, List.flatten_nil, List.append_nil]
      exact pairwise_page (hkeys _ List.mem_cons_self)
  | next hmore hlast tail ih =>
      have hrows := hkeys _ List.mem_cons_self
      rw [List.flatten_cons, List.pairwise_append]
      refine ⟨pairwise_page hrows, ih fun rows h => hkeys rows (List.mem_cons_of_mem _ h),
        fun a ha b hb => ?_⟩
      exact (tail.before_cursor b hb _ rfl).trans_le (le_of_mem_page hrows hlast ha)

/-- If there is a row with a key behind the cursor at every request, one of
these rows is on one of the pages. -/
theorem mem_key (h : Walk key limit cursor tables pages)
    (hkeys : ∀ rows ∈ tables, (rows.map key).Nodup) {k : κ}
    (hk : ∀ rows ∈ tables, ∃ x ∈ rows, key x = k) (hcursor : ∀ c ∈ cursor, k < c) :
    ∃ x ∈ pages.flatten, key x = k := by
  induction h with
  | last hall =>
      obtain ⟨x, hx, rfl⟩ := hk _ List.mem_cons_self
      rw [List.flatten_cons, List.flatten_nil, List.append_nil]
      exact ⟨x, mem_page_of_all hall (mem_behind.mpr ⟨hx, hcursor⟩), rfl⟩
  | next hmore hlast tail ih =>
      obtain ⟨x, hx, rfl⟩ := hk _ List.mem_cons_self
      have hbehind := mem_behind.mpr ⟨hx, hcursor⟩
      rw [List.flatten_cons]
      obtain hpage | hlt := mem_page_or_lt (hkeys _ List.mem_cons_self) hlast hbehind
      · exact ⟨x, List.mem_append_left _ hpage, rfl⟩
      · obtain ⟨y, hy, hxy⟩ := ih (fun rows h => hkeys rows (List.mem_cons_of_mem _ h))
          (fun rows h => hk rows (List.mem_cons_of_mem _ h))
          fun c hc => Option.mem_some_iff.mp hc ▸ hlt
        exact ⟨y, List.mem_append_right _ hy, hxy⟩

/-- What a page lists was there at its request. -/
theorem forall₂ (h : Walk key limit cursor tables pages) :
    List.Forall₂ (fun rows page => ∀ x ∈ page, x ∈ rows) tables pages := by
  induction h with
  | last hall => exact .cons (fun x hx => (mem_behind.mp (mem_behind_of_page hx)).1) .nil
  | next hmore hlast tail ih =>
      exact .cons (fun x hx => (mem_behind.mp (mem_behind_of_page hx)).1) ih

/-- What is listed was there at one of the requests. -/
theorem exists_table (h : Walk key limit cursor tables pages) (hx : x ∈ pages.flatten) :
    ∃ rows ∈ tables, x ∈ rows := by
  obtain ⟨page, hpage, hlisted⟩ := List.mem_flatten.mp hx
  have htables := h.forall₂
  clear h hx
  induction htables with
  | nil => exact absurd hpage List.not_mem_nil
  | @cons rows _ tables _ hrows _ ih =>
      obtain rfl | hpage := List.mem_cons.mp hpage
      · exact ⟨rows, List.mem_cons_self, hrows x hlisted⟩
      · obtain ⟨table, htable, hmem⟩ := ih hpage
        exact ⟨table, List.mem_cons_of_mem _ htable, hmem⟩

/-- A row behind the cursor that is there at every request is on one of the pages. -/
theorem mem (h : Walk key limit cursor tables pages)
    (hkeys : ∀ rows ∈ tables, (rows.map key).Nodup) (hx : ∀ rows ∈ tables, x ∈ rows)
    (hcursor : ∀ c ∈ cursor, key x < c) : x ∈ pages.flatten := by
  obtain ⟨y, hy, hkey⟩ := h.mem_key hkeys (fun rows hrows => ⟨x, hx rows hrows, rfl⟩) hcursor
  obtain ⟨rows, hrows, hmem⟩ := h.exists_table hy
  exact List.inj_on_of_nodup_map (hkeys rows hrows) hmem (hx rows hrows) hkey ▸ hy

/-- Over a table that stays as it is, a walk comes to an end. -/
theorem exists_of_const (hlimit : 0 < limit) (cursor : Option κ) (rows : List α) :
    ∃ n pages, Walk key limit cursor (List.replicate n rows) pages := by
  induction hn : (behind key cursor rows).length using Nat.strongRecOn generalizing cursor with
  | ind n ih =>
      subst hn
      obtain hmore | hall := Nat.lt_or_ge limit (behind key cursor rows).length
      · have hne := page_ne_nil hlimit hmore
        have hlast := List.getLast?_eq_some_getLast hne
        obtain ⟨n, pages, tail⟩ := ih _ (length_behind_lt (List.getLast_mem hne)) _ rfl
        exact ⟨n + 1, _, .next hmore hlast tail⟩
      · exact ⟨1, _, .last hall⟩

end Walk

end PureplayIngest.Lib.Keyset
