import Mathlib.Logic.Relation
import Mathlib.Data.List.Nodup
import Mathlib.Tactic

/-!
# Depth-first traversal of a forest

`children` gives the children of every vertex. `PostOrder children roots order` says that `order` is
what a depth-first traversal from `roots` visits, the children of a vertex from left to right and
before the vertex.

In a forest whose vertices are numbered such that the children of a vertex come after it, there is
such an order, and no vertex occurs in it twice. A recursion over the forest with bounded depth is a
fold over the order (`PostOrder.foldlM_eq`).
-/

namespace Lib

variable {α σ : Type*}

/-- `order` is the traversal from `roots`. -/
inductive PostOrder (children : α → List α) : List α → List α → Prop
  | nil : PostOrder children [] []
  | cons {a : α} {roots below after : List α} :
      PostOrder children (children a) below → PostOrder children roots after →
        PostOrder children (a :: roots) (below ++ a :: after)

/-- A vertex is reached from another one by going to children. -/
abbrev Descends (children : α → List α) : α → α → Prop :=
  Relation.ReflTransGen fun a b => b ∈ children a

namespace PostOrder

section

variable {children : α → List α} {roots order order' : List α}

/-- There is only one traversal. -/
theorem unique (h : PostOrder children roots order) (h' : PostOrder children roots order') :
    order = order' := by
  induction h generalizing order' with
  | nil =>
    cases h'
    rfl
  | cons _ _ ihBelow ihAfter =>
    cases h' with
    | cons hbelow hafter => rw [ihBelow hbelow, ihAfter hafter]

/-- What is visited descends from a root. -/
theorem descends_of_mem (h : PostOrder children roots order) {b : α} (hb : b ∈ order) :
    ∃ r ∈ roots, Descends children r b := by
  induction h with
  | nil => cases hb
  | @cons a roots below after _ _ ihBelow ihAfter =>
    rcases List.mem_append.mp hb with hb | hb
    · obtain ⟨r, hr, hdesc⟩ := ihBelow hb
      exact ⟨a, List.mem_cons_self, .head hr hdesc⟩
    · rcases List.mem_cons.mp hb with rfl | hb
      · exact ⟨b, List.mem_cons_self, .refl⟩
      · obtain ⟨r, hr, hdesc⟩ := ihAfter hb
        exact ⟨r, List.mem_cons_of_mem _ hr, hdesc⟩

end

/-- The vertices below `n` are numbered such that children come after their parent. -/
structure Numbered (children : ℕ → List ℕ) (n : ℕ) : Prop where
  lt : ∀ a, ∀ b ∈ children a, a < b ∧ b < n

/-- A numbered graph in which no vertex is the child of two, or twice the child of one. -/
structure Forest (children : ℕ → List ℕ) (n : ℕ) : Prop extends Numbered children n where
  parent_unique : ∀ a a' b, b ∈ children a → b ∈ children a' → a = a'
  nodup : ∀ a, (children a).Nodup

variable {children : ℕ → List ℕ} {n : ℕ} {roots order : List ℕ}

/-- A single vertex. -/
theorem forest_nil (n : ℕ) : Forest (fun _ => []) n where
  lt := by simp
  parent_unique := by simp
  nodup := by simp

/-- The vertex `n` is added as the last child of `i`. -/
theorem Forest.addChild (hf : Forest children n) {i : ℕ} (hi : i < n) :
    Forest (Function.update children i (children i ++ [n])) (n + 1) := by
  have hmem : ∀ a b, b ∈ Function.update children i (children i ++ [n]) a ↔
      b ∈ children a ∨ a = i ∧ b = n := by
    intro a b
    by_cases ha : a = i
    · subst ha
      simp
    · simp [ha]
  have hn : ∀ a, n ∉ children a := fun a h => lt_irrefl n (hf.lt a n h).2
  refine ⟨⟨fun a b hb => ?_⟩, fun a a' b hb hb' => ?_, fun a => ?_⟩
  · rcases (hmem a b).mp hb with h | ⟨rfl, rfl⟩
    · have := hf.lt a b h
      omega
    · omega
  · rcases (hmem a b).mp hb with h | ⟨ha, hbn⟩ <;>
      rcases (hmem a' b).mp hb' with h' | ⟨ha', hbn'⟩
    · exact hf.parent_unique a a' b h h'
    · exact absurd (hbn' ▸ h) (hn a)
    · exact absurd (hbn ▸ h') (hn a')
    · rw [ha, ha']
  · by_cases ha : a = i
    · subst ha
      rw [Function.update_self]
      exact (hf.nodup a).append (List.nodup_singleton n) (by simpa using hn a)
    · rw [Function.update_of_ne ha]
      exact hf.nodup a

theorem Numbered.le_of_descends (hn : Numbered children n) {a b : ℕ}
    (h : Descends children a b) : a ≤ b := by
  induction h with
  | refl => exact le_rfl
  | tail _ hmem ih => exact ih.trans (hn.lt _ _ hmem).1.le

/-- Every numbered graph can be traversed. -/
theorem Numbered.exists_postOrder (hn : Numbered children n) :
    ∀ roots : List ℕ, (∀ r ∈ roots, r < n) → ∃ order, PostOrder children roots order := by
  have hvertex : ∀ k a, n ≤ a + k → a < n → ∃ below, PostOrder children (children a) below := by
    intro k
    induction k with
    | zero =>
      intro a hk ha
      omega
    | succ k ih =>
      intro a hk _
      have hlist : ∀ bs : List ℕ, (∀ b ∈ bs, a < b ∧ b < n) →
          ∃ order, PostOrder children bs order := by
        intro bs
        induction bs with
        | nil => exact fun _ => ⟨[], .nil⟩
        | cons b bs ihbs =>
          intro hbs
          obtain ⟨hab, hbn⟩ := hbs b List.mem_cons_self
          obtain ⟨below, hbelow⟩ := ih b (by omega) hbn
          obtain ⟨after, hafter⟩ := ihbs fun b' hb' => hbs b' (List.mem_cons_of_mem _ hb')
          exact ⟨_, .cons hbelow hafter⟩
      exact hlist (children a) (hn.lt a)
  intro roots
  induction roots with
  | nil => exact fun _ => ⟨[], .nil⟩
  | cons r roots ih =>
    intro hroots
    obtain ⟨below, hbelow⟩ := hvertex n r (by omega) (hroots r List.mem_cons_self)
    obtain ⟨after, hafter⟩ := ih fun r' hr' => hroots r' (List.mem_cons_of_mem _ hr')
    exact ⟨_, .cons hbelow hafter⟩

/-- Siblings do not descend from one another. -/
theorem Forest.eq_of_descends (hf : Forest children n) {a b b' : ℕ} (hb : b ∈ children a)
    (hb' : b' ∈ children a) (h : Descends children b b') : b = b' := by
  rcases Relation.ReflTransGen.cases_tail h with rfl | ⟨c, hbc, hc⟩
  · rfl
  · obtain rfl := hf.parent_unique _ _ _ hb' hc
    have hle := hf.le_of_descends hbc
    have hlt := (hf.lt a b hb).1
    omega

/-- Of two vertices with a common descendant, one descends from the other. -/
theorem Forest.descends_total (hf : Forest children n) {a b c : ℕ}
    (hac : Descends children a c) (hbc : Descends children b c) :
    Descends children a b ∨ Descends children b a := by
  induction hac with
  | refl => exact .inr hbc
  | tail hac hmem ih =>
    rcases Relation.ReflTransGen.cases_tail hbc with rfl | ⟨d, hbd, hd⟩
    · exact .inl (.tail hac hmem)
    · obtain rfl := hf.parent_unique _ _ _ hmem hd
      exact ih hbd

/-- A traversal of a forest from roots that do not descend from one another visits no vertex
twice. -/
theorem nodup (hf : Forest children n) (h : PostOrder children roots order)
    (hroots : roots.Nodup)
    (hindep : ∀ r ∈ roots, ∀ r' ∈ roots, Descends children r r' → r = r') : order.Nodup := by
  induction h with
  | nil => exact List.nodup_nil
  | @cons a roots below after hbelow hafter ihBelow ihAfter =>
    rw [List.nodup_cons] at hroots
    have hdescBelow : ∀ b ∈ below, Descends children a b ∧ a < b := by
      intro b hb
      obtain ⟨r, hr, hdesc⟩ := hbelow.descends_of_mem hb
      have hlt := (hf.lt a r hr).1
      have hle := hf.le_of_descends hdesc
      exact ⟨.head hr hdesc, by omega⟩
    -- no vertex of another root's tree descends from `a`
    have hdisj : ∀ b ∈ after, ¬ Descends children a b := by
      intro b hb hab
      obtain ⟨r, hr, hrb⟩ := hafter.descends_of_mem hb
      have hr' := List.mem_cons_of_mem a hr
      have heq : a = r := by
        rcases hf.descends_total hab hrb with har | hra
        · exact hindep a List.mem_cons_self r hr' har
        · exact (hindep r hr' a List.mem_cons_self hra).symm
      exact hroots.1 (heq ▸ hr)
    refine List.nodup_append'.mpr ⟨ihBelow (hf.nodup a) fun r hr r' hr' => hf.eq_of_descends hr hr',
      List.nodup_cons.mpr ⟨fun ha => hdisj a ha .refl, ihAfter hroots.2 fun r hr r' hr' =>
        hindep r (List.mem_cons_of_mem _ hr) r' (List.mem_cons_of_mem _ hr')⟩, ?_⟩
    intro b hb hb'
    rcases List.mem_cons.mp hb' with rfl | hb'
    · exact absurd (hdescBelow b hb).2 (lt_irrefl b)
    · exact hdisj b hb' (hdescBelow b hb).1

/-- A recursion that visits the children of a vertex before the vertex, with enough fuel, is a fold
over the traversal. -/
theorem foldlM_eq (hn : Numbered children n) {visit : ℕ → ℕ → σ → Option σ} {f : σ → ℕ → σ}
    (hvisit : ∀ fuel a s, a < n → visit (fuel + 1) a s =
      ((children a).foldlM (fun s b => visit fuel b s) s).map fun s => f s a)
    (h : PostOrder children roots order) (fuel : ℕ) (s : σ)
    (hroots : ∀ r ∈ roots, r < n ∧ n ≤ r + fuel) :
    roots.foldlM (fun s r => visit fuel r s) s = some (order.foldl f s) := by
  induction h generalizing fuel s with
  | nil => rfl
  | @cons a roots below after _ _ ihBelow ihAfter =>
    obtain ⟨ha, hfuel⟩ := hroots a List.mem_cons_self
    obtain ⟨fuel, rfl⟩ : ∃ k, fuel = k + 1 := ⟨fuel - 1, by omega⟩
    have hbelow := ihBelow fuel s fun b hb => by
      have := hn.lt a b hb
      omega
    have hafter := ihAfter (fuel + 1) (f (below.foldl f s) a) fun r hr => hroots r (List.mem_cons_of_mem _ hr)
    rw [List.foldlM_cons, hvisit fuel a s ha, hbelow, List.foldl_append, List.foldl_cons]
    exact hafter

end PostOrder

end Lib
