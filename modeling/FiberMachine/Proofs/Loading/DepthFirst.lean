import Mathlib.Data.Finset.Card
import Mathlib.Logic.Relation

/-!
# Depth-first search

`DepthFirst next seen todo order` says that visiting the vertices `todo` from left to right, and the
successors of each vertex before it is left, leaves the vertices that were not yet seen in the given
order. In a finite graph there is such an order whatever cycles the graph has
(`DepthFirst.exists_order`), and it holds each vertex that can be reached just once.
-/

namespace FiberMachine

/-- The order in which a depth-first search leaves vertices. -/
inductive DepthFirst {α : Type} (next : α → List α) : List α → List α → List α → Prop where
  | nil {seen : List α} : DepthFirst next seen [] []
  /-- A vertex that was seen before is passed over. -/
  | skip {seen todo order : List α} {x : α} : x ∈ seen → DepthFirst next seen todo order →
      DepthFirst next seen (x :: todo) order
  /-- A new vertex is left after all that is new below it. -/
  | visit {seen todo inner outer : List α} {x : α} : x ∉ seen →
      DepthFirst next (x :: seen) (next x) inner →
      DepthFirst next (inner ++ x :: seen) todo outer →
      DepthFirst next seen (x :: todo) (inner ++ x :: outer)

namespace DepthFirst

variable {α : Type} {next : α → List α} {seen todo order : List α} {x y : α}

/-- No vertex is left twice, and none that was seen before. -/
theorem nodup (h : DepthFirst next seen todo order) :
    order.Nodup ∧ ∀ x ∈ order, x ∉ seen := by
  induction h with
  | nil => exact ⟨List.nodup_nil, fun _ hx => absurd hx List.not_mem_nil⟩
  | skip _ _ ih => exact ih
  | @visit seen todo inner outer x hx _ _ ihinner ihouter =>
    obtain ⟨hinner, hinnerSeen⟩ := ihinner
    obtain ⟨houter, houterSeen⟩ := ihouter
    constructor
    · refine List.nodup_append.mpr ⟨hinner, List.nodup_cons.mpr ⟨fun h => ?_, houter⟩, ?_⟩
      · exact houterSeen x h (List.mem_append_right _ List.mem_cons_self)
      · rintro y hy z hz rfl
        rcases List.mem_cons.mp hz with rfl | hz
        · exact hinnerSeen y hy List.mem_cons_self
        · exact houterSeen y hz (List.mem_append_left _ hy)
    · intro y hy hyseen
      rcases List.mem_append.mp hy with hy | hy
      · exact hinnerSeen y hy (List.mem_cons_of_mem _ hyseen)
      · rcases List.mem_cons.mp hy with rfl | hy
        · exact hx hyseen
        · exact houterSeen y hy (List.mem_append_right _ (List.mem_cons_of_mem _ hyseen))

/-- A vertex that is left can be reached from one that was to be visited. -/
theorem reachable (h : DepthFirst next seen todo order) (hy : y ∈ order) :
    ∃ x ∈ todo, Relation.ReflTransGen (fun a b => b ∈ next a) x y := by
  induction h with
  | nil => cases hy
  | skip _ _ ih =>
    obtain ⟨x, hx, hreach⟩ := ih hy
    exact ⟨x, List.mem_cons_of_mem _ hx, hreach⟩
  | @visit seen todo inner outer x _ _ _ ihinner ihouter =>
    rcases List.mem_append.mp hy with hy | hy
    · obtain ⟨z, hz, hreach⟩ := ihinner hy
      exact ⟨x, List.mem_cons_self, .head hz hreach⟩
    · rcases List.mem_cons.mp hy with rfl | hy
      · exact ⟨y, List.mem_cons_self, .refl⟩
      · obtain ⟨z, hz, hreach⟩ := ihouter hy
        exact ⟨z, List.mem_cons_of_mem _ hz, hreach⟩

/-- What was to be visited, and the successors of all that was left, has been seen in the end. -/
theorem closed (h : DepthFirst next seen todo order) :
    (∀ x ∈ todo, x ∈ order ∨ x ∈ seen) ∧
      ∀ x ∈ order, ∀ y ∈ next x, y ∈ order ∨ y ∈ seen := by
  induction h with
  | nil => exact ⟨fun _ hx => absurd hx List.not_mem_nil, fun _ hx => absurd hx List.not_mem_nil⟩
  | skip hx _ ih =>
    refine ⟨fun y hy => ?_, ih.2⟩
    rcases List.mem_cons.mp hy with rfl | hy
    · exact .inr hx
    · exact ih.1 y hy
  | @visit seen todo inner outer x _ _ _ ihinner ihouter =>
    have hinner {y : α} (hy : y ∈ inner ∨ y ∈ x :: seen) :
        y ∈ inner ++ x :: outer ∨ y ∈ seen := by
      simp only [List.mem_cons, List.mem_append] at hy ⊢
      tauto
    have houter {y : α} (hy : y ∈ outer ∨ y ∈ inner ++ x :: seen) :
        y ∈ inner ++ x :: outer ∨ y ∈ seen := by
      simp only [List.mem_cons, List.mem_append] at hy ⊢
      tauto
    constructor
    · intro y hy
      rcases List.mem_cons.mp hy with rfl | hy
      · exact .inl (List.mem_append_right _ List.mem_cons_self)
      · exact houter (ihouter.1 y hy)
    · intro y hy z hz
      rcases List.mem_append.mp hy with hy | hy
      · exact hinner (ihinner.2 y hy z hz)
      · rcases List.mem_cons.mp hy with rfl | hy
        · exact hinner (ihinner.1 z hz)
        · exact houter (ihouter.2 y hy z hz)

/-- A search from one vertex leaves what can be reached from it. -/
theorem mem_iff_reachable {root : α} (h : DepthFirst next [] [root] order) :
    y ∈ order ↔ Relation.ReflTransGen (fun a b => b ∈ next a) root y := by
  constructor
  · intro hy
    obtain ⟨x, hx, hreach⟩ := h.reachable hy
    rwa [List.mem_singleton.mp hx] at hreach
  · intro hreach
    have hseen {z : α} (hz : z ∈ order ∨ z ∈ []) : z ∈ order := hz.resolve_right List.not_mem_nil
    induction hreach with
    | refl => exact hseen (h.closed.1 root List.mem_cons_self)
    | tail _ hnext ih => exact hseen (h.closed.2 _ ih _ hnext)

section Finite

variable [DecidableEq α] (vertices : Finset α)

/-- Each new vertex reduces the number of those that were not seen. -/
theorem card_unseen_lt (hx : x ∈ vertices) (hnew : x ∉ seen) :
    (vertices.filter (· ∉ x :: seen)).card < (vertices.filter (· ∉ seen)).card := by
  refine Finset.card_lt_card (Finset.ssubset_iff_subset_ne.mpr ⟨fun y hy => ?_, fun heq => ?_⟩)
  · rw [Finset.mem_filter, List.mem_cons] at hy
    exact Finset.mem_filter.mpr ⟨hy.1, fun h => hy.2 (.inr h)⟩
  · have hmem : x ∈ vertices.filter (· ∉ x :: seen) := heq ▸ Finset.mem_filter.mpr ⟨hx, hnew⟩
    exact (Finset.mem_filter.mp hmem).2 List.mem_cons_self

theorem card_unseen_le (hsub : ∀ y ∈ seen, y ∈ order) :
    (vertices.filter (· ∉ order)).card ≤ (vertices.filter (· ∉ seen)).card := by
  refine Finset.card_le_card fun y hy => ?_
  rw [Finset.mem_filter] at hy
  exact Finset.mem_filter.mpr ⟨hy.1, fun h => hy.2 (hsub y h)⟩

variable {vertices}

/-- A search in a finite graph ends. -/
theorem exists_order (hnext : ∀ x ∈ vertices, ∀ y ∈ next x, y ∈ vertices)
    (htodo : ∀ x ∈ todo, x ∈ vertices) : ∃ order, DepthFirst next seen todo order := by
  -- The vertices below a new one are visited with fewer unseen, those beside it with no more.
  suffices hbound : ∀ n seen todo, (vertices.filter (· ∉ seen)).card ≤ n →
      (∀ x ∈ todo, x ∈ vertices) → ∃ order, DepthFirst next seen todo order from
    hbound _ seen todo le_rfl htodo
  intro n
  induction n using Nat.strong_induction_on with
  | _ n ih =>
    intro seen todo hn htodo
    induction todo generalizing seen with
    | nil => exact ⟨[], .nil⟩
    | cons x todo ihtodo =>
      have hx : x ∈ vertices := htodo x List.mem_cons_self
      have hrest : ∀ y ∈ todo, y ∈ vertices := fun y hy => htodo y (List.mem_cons_of_mem _ hy)
      by_cases hseen : x ∈ seen
      · obtain ⟨order, horder⟩ := ihtodo seen hn hrest
        exact ⟨order, .skip hseen horder⟩
      · have hfewer := lt_of_lt_of_le (card_unseen_lt vertices hx hseen) hn
        obtain ⟨inner, hinner⟩ := ih _ hfewer (x :: seen) (next x) le_rfl (hnext x hx)
        have hnoMore : (vertices.filter (· ∉ inner ++ x :: seen)).card ≤ n :=
          le_trans (card_unseen_le vertices fun y hy =>
            List.mem_append_right _ (List.mem_cons_of_mem _ hy)) hn
        obtain ⟨outer, houter⟩ := ihtodo _ hnoMore hrest
        exact ⟨inner ++ x :: outer, .visit hseen hinner houter⟩

end Finite

end DepthFirst

end FiberMachine
