import CrossCall.Proofs.Graph
import CrossCall.Proofs.Search

/-! The enumeration of paths by backtracking comes to an end, and it lists a path around obstacles
exactly if the breadth-first search finds that there is one. -/
namespace CrossCall.Flow

namespace Walk

variable {next : Int → List Int} {a b x : Int} {xs : List Int}

/-- A walk goes on from each of its vertices. -/
theorem from_mem (h : Walk next a xs b) (hx : x ∈ xs) : ∃ ys, ys <:+ xs ∧ Walk next x ys b := by
  induction h with
  | here =>
    cases List.mem_singleton.mp hx
    exact ⟨_, List.suffix_rfl, .here⟩
  | step hm hw ih =>
    rcases List.mem_cons.mp hx with rfl | hx
    · exact ⟨_, List.suffix_rfl, .step hm hw⟩
    · obtain ⟨ys, hs, hy⟩ := ih hx
      exact ⟨ys, hs.trans (List.suffix_cons _ _), hy⟩

/-- Without its detours a walk repeats no vertex. -/
theorem exists_nodup (h : Walk next a xs b) :
    ∃ ys, Walk next a ys b ∧ ys.Nodup ∧ ∀ y ∈ ys, y ∈ xs := by
  induction h with
  | @here a => exact ⟨[a], .here, by simp, fun _ h => h⟩
  | @step a m b xs hm _ ih =>
    obtain ⟨ys, hw, hnodup, hsub⟩ := ih
    by_cases ha : a ∈ ys
    · obtain ⟨zs, hs, hz⟩ := hw.from_mem ha
      exact ⟨zs, hz, hnodup.sublist hs.sublist,
        fun z h => List.mem_cons_of_mem _ (hsub z (hs.mem h))⟩
    · refine ⟨a :: ys, .step hm hw, List.nodup_cons.mpr ⟨ha, hnodup⟩, ?_⟩
      intro y hy
      rcases List.mem_cons.mp hy with rfl | hy
      · exact List.mem_cons_self
      · exact List.mem_cons_of_mem _ (hsub y hy)

end Walk

namespace Graph

/-- From these frames the enumeration stops after so many rounds, and lists these paths on the
way. -/
inductive Enumerates (next : Int → List Int) (goal : Int) :
    Nat → List Frame → List (List Int) → Prop
  | done : Enumerates next goal 0 [] []
  | back {k : Nat} {v : Int} {below : List Frame} {ps : List (List Int)} :
      Enumerates next goal k below ps → Enumerates next goal (k + 1) ((v, []) :: below) ps
  | found {k : Nat} {v : Int} {xs : List Int} {below : List Frame} {ps : List (List Int)} :
      Enumerates next goal k ((v, xs) :: below) ps →
      Enumerates next goal (k + 1) ((v, goal :: xs) :: below)
      ((goal :: v :: below.map (·.1)).reverse :: ps)
  | enter {k : Nat} {v x : Int} {xs : List Int} {below : List Frame} {ps : List (List Int)} :
      x ≠ goal → Enumerates next goal k
        ((x, (next x).filter fun y => y ∉ x :: v :: below.map (·.1)) :: (v, xs) :: below) ps →
      Enumerates next goal (k + 1) ((v, x :: xs) :: below) ps

/-- A way on to the goal, its first vertex among the choices, that repeats no vertex of the path
after that. -/
inductive Continues (next : Int → List Int) (goal : Int) : List Int → List Int → List Int → Prop
  | stop {path xs : List Int} : goal ∈ xs → Continues next goal path xs [goal]
  | go {x : Int} {path xs ws : List Int} : x ∈ xs → x ≠ goal →
      Continues next goal (x :: path) ((next x).filter fun y => y ∉ x :: path) ws →
      Continues next goal path xs (x :: ws)

variable {g : Graph} {next : Int → List Int} {start goal v x : Int} {n k bound cost : Nat}
  {avoid region path xs ws q : List Int} {stack below : List Frame} {ps : List (List Int)}

/-! ### Rounds of the enumeration -/

/-- With as many rounds as the enumeration takes, or more, the bounded one gives the same list. -/
theorem Enumerates.trails_eq (h : Enumerates next goal k stack ps) (hk : k ≤ n) :
    trails next goal n stack = ps := by
  induction h generalizing n with
  | done => cases n <;> rfl
  | back _ ih =>
    obtain ⟨m, rfl⟩ : ∃ m, n = m + 1 := ⟨n - 1, by omega⟩
    rw [trails, ih (by omega)]
  | found _ ih =>
    obtain ⟨m, rfl⟩ : ∃ m, n = m + 1 := ⟨n - 1, by omega⟩
    rw [trails, if_pos rfl, ih (by omega)]
  | enter hx _ ih =>
    obtain ⟨m, rfl⟩ : ∃ m, n = m + 1 := ⟨n - 1, by omega⟩
    rw [trails, if_neg hx, ih (by omega)]

/-! ### How long it takes -/

/-- How many vertices of a region are not on the path. -/
def room (region path : List Int) : Nat := (region.filter fun y => y ∉ path).length

theorem room_le (region path : List Int) : room region path ≤ region.length :=
  List.length_filter_le _ _

theorem room_cons_lt (hx : x ∈ region) (hp : x ∉ path) :
    room region (x :: path) < room region path := by
  have hsub : (region.filter fun y => y ∉ x :: path).Sublist (region.filter fun y => y ∉ path) := by
    apply List.monotone_filter_right
    intro y hy
    simp_all
  have hle : room region (x :: path) ≤ room region path := hsub.length_le
  refine lt_of_le_of_ne hle fun heq => ?_
  have hmem : x ∈ region.filter fun y => y ∉ path := by simp [hx, hp]
  rw [← hsub.eq_of_length heq] at hmem
  simp at hmem

/-- The frame of a vertex, entered on top of a stack that has been dealt with, is dealt with in so
many more rounds. -/
def Passable (next : Int → List Int) (goal : Int) (cost : Nat) (x : Int) (stack : List Frame) :
    Prop :=
  ∀ k ps, Enumerates next goal k stack ps → ∃ k' ps', k' ≤ k + cost ∧
    Enumerates next goal k' ((x, (next x).filter fun y => y ∉ x :: stack.map (·.1)) :: stack) ps'

/-- The neighbours of a vertex are tried one after the other. -/
theorem enumerates_frame (hbelow : Enumerates next goal k below ps)
    (hpass : ∀ x ∈ xs, ∀ rest, Passable next goal cost x ((v, rest) :: below)) :
    ∃ k' ps', k' ≤ k + 1 + xs.length * (1 + cost) ∧
    Enumerates next goal k' ((v, xs) :: below) ps' := by
  induction xs with
  | nil => exact ⟨k + 1, ps, by simp, .back hbelow⟩
  | cons x rest ih =>
    obtain ⟨k₁, ps₁, hk₁, h₁⟩ := ih fun y hy => hpass y (List.mem_cons_of_mem _ hy)
    have hlen : (x :: rest).length * (1 + cost) = rest.length * (1 + cost) + (1 + cost) := by
      rw [List.length_cons, Nat.add_mul, Nat.one_mul]
    by_cases hx : x = goal
    · subst hx
      exact ⟨k₁ + 1, _, by omega, .found h₁⟩
    · obtain ⟨k₂, ps₂, hk₂, h₂⟩ := hpass x List.mem_cons_self rest k₁ ps₁ h₁
      exact ⟨k₂ + 1, ps₂, by omega, .enter hx h₂⟩

section Bounded

variable (hbound : ∀ v, (next v).length ≤ bound) (hregion : ∀ v, ∀ w ∈ next v, w ∈ region)

include hbound hregion

/-- A vertex on whose path there is room for `n` more costs what the bound says. -/
theorem passable (hroom : room region (x :: stack.map (·.1)) ≤ n) :
    Passable next goal (pathFuel bound n) x stack := by
  induction n generalizing x stack with
  | zero =>
    intro k ps h
    have hnone : ((next x).filter fun y => y ∉ x :: stack.map (·.1)) = [] := by
      rw [List.filter_eq_nil_iff]
      intro y hy hfree
      have hpath : y ∉ x :: stack.map (·.1) := by simpa using hfree
      have := room_cons_lt (hregion x y hy) hpath
      omega
    rw [hnone]
    exact ⟨k + 1, ps, by simp [pathFuel], .back h⟩
  | succ n ih =>
    intro k ps h
    -- Every neighbour that is offered takes room on the path.
    have hpass : ∀ y ∈ (next x).filter fun y => y ∉ x :: stack.map (·.1), ∀ rest,
        Passable next goal (pathFuel bound n) y ((x, rest) :: stack) := by
      intro y hy rest
      obtain ⟨hnext, hfree⟩ := List.mem_filter.mp hy
      have hpath : y ∉ x :: stack.map (·.1) := by simpa using hfree
      have hlt := room_cons_lt (hregion x y hnext) hpath
      apply ih
      simp only [List.map_cons]
      omega
    obtain ⟨k', ps', hk', h'⟩ := enumerates_frame h hpass
    refine ⟨k', ps', ?_, h'⟩
    have hlen :=
      (List.length_filter_le (fun y => y ∉ x :: stack.map (·.1)) (next x)).trans (hbound x)
    have hmul := Nat.mul_le_mul_right (1 + pathFuel bound n) hlen
    rw [pathFuel]
    omega

theorem enumerates_from (start goal : Int) :
    ∃ k ps, k ≤ pathFuel bound (region.length + 1) ∧
    Enumerates next goal k [(start, next start)] ps := by
  have hpass : ∀ x ∈ next start, ∀ rest,
      Passable next goal (pathFuel bound region.length) x [(start, rest)] :=
    fun x _ rest => passable hbound hregion (room_le _ _)
  obtain ⟨k, ps, hk, h⟩ := enumerates_frame .done hpass
  refine ⟨k, ps, ?_, h⟩
  have hmul := Nat.mul_le_mul_right (1 + pathFuel bound region.length) (hbound start)
  rw [pathFuel]
  omega

end Bounded

theorem length_successors_le (g : Graph) (v : Int) : (g.successors v).length ≤ g.arcs.length :=
  List.length_filterMap_le _ _

theorem successor_mem (g : Graph) : ∀ v, ∀ w ∈ g.successors v, w ∈ g.arcs.map (·.2) := by
  intro v w hw
  exact List.mem_map_of_mem (mem_successors.mp hw)

/-- The enumeration of a graph's paths stops, and what it lists then is the list of all paths. -/
theorem enumerates_allPaths (hne : start ≠ goal) :
    ∃ k, Enumerates g.successors goal k [(start, g.successors start)] (g.allPaths start goal) := by
  obtain ⟨k, ps, hk, h⟩ := enumerates_from (length_successors_le g) (successor_mem g) start goal
  have heq : g.allPaths start goal = ps := by
    rw [allPaths, if_neg hne]
    apply h.trails_eq
    rw [List.length_map] at hk
    omega
  exact ⟨k, heq ▸ h⟩

/-! ### What is listed -/

theorem not_continues_nil : ¬ Continues next goal path [] ws := by
  rintro (h | ⟨h, -, -⟩) <;> simp at h

theorem continues_goal :
    Continues next goal path (goal :: xs) ws ↔ ws = [goal] ∨ Continues next goal path xs ws := by
  constructor
  · rintro (- | ⟨hx, hne, h⟩)
    · exact .inl rfl
    · exact .inr (.go ((List.mem_cons.mp hx).resolve_left hne) hne h)
  · rintro (rfl | ⟨hx⟩ | ⟨hx, hne, h⟩)
    · exact .stop List.mem_cons_self
    · exact .stop (List.mem_cons_of_mem _ hx)
    · exact .go (List.mem_cons_of_mem _ hx) hne h

theorem continues_cons (hne : x ≠ goal) : Continues next goal path (x :: xs) ws ↔
    (∃ rest, ws = x :: rest ∧
      Continues next goal (x :: path) ((next x).filter fun y => y ∉ x :: path) rest) ∨
      Continues next goal path xs ws := by
  constructor
  · rintro (hx | ⟨hx, hgoal, h⟩)
    · exact .inr (.stop ((List.mem_cons.mp hx).resolve_left (Ne.symm hne)))
    · rcases List.mem_cons.mp hx with rfl | hx
      · exact .inl ⟨_, rfl, h⟩
      · exact .inr (.go hx hgoal h)
  · rintro (⟨rest, rfl, h⟩ | ⟨hx⟩ | ⟨hx, hgoal, h⟩)
    · exact .go List.mem_cons_self hne h
    · exact .stop (List.mem_cons_of_mem _ hx)
    · exact .go (List.mem_cons_of_mem _ hx) hgoal h

/-- A path that goes on from one of the frames of a stack. -/
def Offers (next : Int → List Int) (goal : Int) (stack : List Frame) (q : List Int) : Prop :=
  ∃ v xs below ws, (v, xs) :: below <:+ stack ∧ Continues next goal (v :: below.map (·.1)) xs ws ∧
    q = (v :: below.map (·.1)).reverse ++ ws

theorem not_offers_nil : ¬ Offers next goal [] q := by
  rintro ⟨v, xs, below, ws, hs, -⟩
  simp at hs

theorem offers_cons : Offers next goal ((v, xs) :: below) q ↔
    (∃ ws, Continues next goal (v :: below.map (·.1)) xs ws ∧
      q = (v :: below.map (·.1)).reverse ++ ws) ∨
      Offers next goal below q := by
  constructor
  · rintro ⟨v', xs', below', ws, hs, hc, hq⟩
    rcases List.suffix_cons_iff.mp hs with heq | hs
    · cases heq
      exact .inl ⟨ws, hc, hq⟩
    · exact .inr ⟨v', xs', below', ws, hs, hc, hq⟩
  · rintro (⟨ws, hc, hq⟩ | ⟨v', xs', below', ws, hs, hc, hq⟩)
    · exact ⟨v, xs, below, ws, List.suffix_rfl, hc, hq⟩
    · exact ⟨v', xs', below', ws, hs.trans (List.suffix_cons _ _), hc, hq⟩

/-- What is listed from a stack is what its frames offer. -/
theorem Enumerates.mem_iff (h : Enumerates next goal k stack ps) :
    q ∈ ps ↔ Offers next goal stack q := by
  induction h with
  | done => simp [not_offers_nil]
  | back _ ih => simp [offers_cons, not_continues_nil, ih]
  | found _ ih =>
    rw [List.mem_cons, ih, offers_cons, offers_cons, ← or_assoc]
    apply or_congr_left
    simp only [continues_goal, or_and_right, exists_or, exists_eq_left]
    simp
  | @enter n v x xs below ps hx _ ih =>
    rw [ih, offers_cons, offers_cons, offers_cons, ← or_assoc]
    apply or_congr_left
    simp only [continues_cons hx, or_and_right, exists_or]
    apply or_congr_left
    constructor
    · rintro ⟨ws, hc, rfl⟩
      exact ⟨x :: ws, ⟨ws, rfl, hc⟩, by simp⟩
    · rintro ⟨_, ⟨ws, rfl, hc⟩, rfl⟩
      exact ⟨ws, hc, by simp⟩

theorem mem_allPaths (hne : start ≠ goal) : q ∈ g.allPaths start goal ↔
    ∃ ws, Continues g.successors goal [start] (g.successors start) ws ∧ q = start :: ws := by
  obtain ⟨k, h⟩ := @enumerates_allPaths g start goal hne
  rw [h.mem_iff, offers_cons]
  simp [not_offers_nil]

/-! ### Listed paths and paths around obstacles -/

theorem Continues.pathAvoiding (h : Continues next goal path xs ws) (hxs : ∀ x ∈ xs, x ∈ next v)
    (hclear : ∀ x ∈ ws.dropLast, x ∉ avoid) : PathAvoiding next avoid v goal := by
  induction h generalizing v with
  | stop hgoal => exact .arc (hxs _ hgoal)
  | @go x path xs ws hx _ hc ih =>
    have hws : ws ≠ [] := by cases hc <;> simp
    rw [List.dropLast_cons_of_ne_nil hws] at hclear
    refine .step (hxs x hx) (hclear x List.mem_cons_self) (ih ?_ ?_)
    · exact fun y hy => (List.mem_filter.mp hy).1
    · exact fun y hy => hclear y (List.mem_cons_of_mem _ hy)

/-- A walk without repetitions, away from the path so far, is a way on. -/
theorem Continues.of_walk (h : Walk next x ws goal) (hnodup : ws.Nodup) (hpath : ∀ y ∈ ws, y ∉ path)
    (hx : x ∈ xs) : Continues next goal path xs ws := by
  induction h generalizing path xs with
  | here => exact .stop hx
  | @step x m goal ws hm hw ih =>
    obtain ⟨hne, hnodup⟩ := List.nodup_cons.mp hnodup
    have hgoal : x ≠ goal := fun he => hne (he ▸ hw.stop_mem)
    have haway : ∀ y ∈ ws, y ∉ x :: path := by
      intro y hy hmem
      rcases List.mem_cons.mp hmem with rfl | hmem
      · exact hne hy
      · exact hpath y (List.mem_cons_of_mem _ hy) hmem
    refine .go hx hgoal (ih hnodup haway ?_)
    simpa [hm] using haway m hw.start_mem

theorem PathAvoiding.continues (h : PathAvoiding next avoid start goal) (hne : start ≠ goal)
    (hs : start ∉ avoid) (hg : goal ∉ avoid) :
    ∃ ws, Continues next goal [start] (next start) ws ∧ ∀ x ∈ ws, x ∉ avoid := by
  obtain ⟨xs, hw, hclear⟩ := h.walk hs hg
  obtain ⟨ys, hw, hnodup, hsub⟩ := hw.exists_nodup
  cases hw with
  | here => exact (hne rfl).elim
  | @step _ m _ ws hm hw =>
    obtain ⟨hstart, hnodup⟩ := List.nodup_cons.mp hnodup
    refine ⟨ws, .of_walk hw hnodup ?_ hm, fun x hx => hclear x (hsub x (List.mem_cons_of_mem _ hx))⟩
    intro y hy hmem
    cases List.mem_singleton.mp hmem
    exact hstart hy

/-- Between two different vertices the enumeration stops, and one of the paths that it lists keeps
clear of the obstacles between its ends exactly if the search finds a way around them. -/
theorem hasPathAvoiding_iff_allPaths (hne : start ≠ goal) (hs : start ∉ avoid) (hg : goal ∉ avoid) :
    (∃ k, Enumerates g.successors goal k [(start, g.successors start)] (g.allPaths start goal)) ∧
      (g.hasPathAvoiding start goal avoid = true ↔
        ∃ path ∈ g.allPaths start goal, ∀ x ∈ path.tail.dropLast, x ∉ avoid) := by
  refine ⟨enumerates_allPaths hne, ?_⟩
  rw [hasPathAvoiding_iff hne hs hg]
  constructor
  · intro h
    obtain ⟨ws, hc, hclear⟩ := h.continues hne hs hg
    refine ⟨start :: ws, (mem_allPaths hne).mpr ⟨ws, hc, rfl⟩, ?_⟩
    exact fun x hx => hclear x (List.mem_of_mem_dropLast hx)
  · rintro ⟨path, hpath, hclear⟩
    obtain ⟨ws, hc, rfl⟩ := (mem_allPaths hne).mp hpath
    exact hc.pathAvoiding (fun _ h => h) hclear

/-- A vertex with an arc to itself, a way there and back, and two ways on, one of them past an
obstacle. -/
def detour : Graph :=
  let vertex (id : Int) : Vertex := { id }
  let arc (a b : Int) : Edge := { source := some (vertex a), target := some (vertex b) }
  { vertices := [vertex 1, vertex 2, vertex 3, vertex 4]
    edges := [arc 1 1, arc 1 2, arc 2 1, arc 1 3, arc 3 2, arc 2 4, arc 3 4, arc 3 4] }

theorem hasPathAvoiding_detour : ((1 : Int) ≠ 4 ∧ (1 : Int) ∉ [2] ∧ (4 : Int) ∉ [2]) ∧
    (∃ k, Enumerates detour.successors 4 k [(1, detour.successors 1)] (detour.allPaths 1 4)) ∧
      (detour.hasPathAvoiding 1 4 [2] = true ↔
        ∃ path ∈ detour.allPaths 1 4, ∀ x ∈ path.tail.dropLast, x ∉ [2]) :=
  ⟨by decide, hasPathAvoiding_iff_allPaths (by decide) (by decide) (by decide)⟩

end Graph

end CrossCall.Flow
