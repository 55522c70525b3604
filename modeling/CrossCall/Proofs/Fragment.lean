import CrossCall.Proofs.Execution

/-! Pieces of control flow that agree with a statement: the trails through the records are what its
executions visit. One lemma for each way of putting statements together. -/
namespace CrossCall.Flow

variable {src : Source} {l : Locus} {s s₁ s₂ : Stmt} {o : Outcome} {v w a b c first : Vertex}
  {vs xs ys us ws : List Vertex} {E X : List Exit} {rs rs₁ rs₂ : List Record} {p p₁ p₂ : Piece}
  {R R' inner : Vertex → Vertex → Prop} {label : String}

/-! ### Trails -/

/-- Vertices one after the other along a relation, from the first to the last. -/
inductive Trail (R : Vertex → Vertex → Prop) (first : Vertex) : List Vertex → Vertex → Prop
  | one : Trail R first [first] first
  | snoc {xs : List Vertex} {a b : Vertex} : Trail R first xs a → R a b →
      Trail R first (xs ++ [b]) b

namespace Trail

theorem mono (h : Trail R first xs a) (hr : ∀ a b, R a b → R' a b) : Trail R' first xs a := by
  induction h with
  | one => exact .one
  | snoc _ hab ih => exact .snoc ih (hr _ _ hab)

theorem append (h : Trail R first xs a) (hr : R a b) (h' : Trail R b ys c) :
    Trail R first (xs ++ ys) c := by
  induction h' with
  | one => exact .snoc h hr
  | snoc _ hab ih =>
    rw [← List.append_assoc]
    exact .snoc ih hab

theorem cons (hr : R v first) (h : Trail R first xs a) : Trail R v (v :: xs) a :=
  Trail.one.append hr h

/-- The last vertex is the first one or an arc leads to it. -/
theorem last (h : Trail R first xs b) : xs = [first] ∧ b = first ∨ ∃ a, R a b := by
  cases h with
  | one => exact .inl ⟨rfl, rfl⟩
  | snoc _ hab => exact .inr ⟨_, hab⟩

theorem all (h : Trail R first xs b) (hfirst : first ∈ vs) (hr : ∀ a b, R a b → b ∈ vs) :
    ∀ x ∈ xs, x ∈ vs := by
  induction h with
  | one => simpa using hfirst
  | snoc _ hab ih =>
    intro x hx
    rcases List.mem_append.mp hx with hx | hx
    · exact ih x hx
    · cases List.mem_singleton.mp hx
      exact hr _ _ hab

theorem getLast? (h : Trail R first xs b) : xs.getLast? = some b := by
  cases h <;> simp

theorem exists_iff_isChain : (∃ b, Trail R first xs b) ↔ xs.head? = some first ∧ xs.IsChain R := by
  constructor
  · rintro ⟨b, h⟩
    induction h with
    | one => simp
    | snoc h hab ih =>
      refine ⟨by simp [List.head?_append, ih.1], List.isChain_append.mpr ⟨ih.2, by simp, ?_⟩⟩
      simpa [h.getLast?] using hab
  · rintro ⟨hhead, hchain⟩
    induction xs using List.reverseRecOn with
    | nil => cases hhead
    | append_singleton xs b ih =>
      obtain ⟨hxs, -, hlast⟩ := List.isChain_append.mp hchain
      cases xs with
      | nil =>
        cases hhead
        exact ⟨_, .one⟩
      | cons x rest =>
        obtain ⟨a, ha⟩ := ih (by simpa using hhead) hxs
        exact ⟨b, .snoc ha (hlast a ha.getLast? b (by simp))⟩

theorem initial (h : Trail R first ys b) (hp : xs <+: ys) (hne : xs ≠ []) :
    ∃ a, Trail R first xs a := by
  obtain ⟨rest, rfl⟩ := hp
  obtain ⟨hhead, hchain⟩ := exists_iff_isChain.mp ⟨b, h⟩
  rw [List.head?_append_of_ne_nil _ hne] at hhead
  exact exists_iff_isChain.mpr ⟨hhead, hchain.left_of_append⟩

end Trail

/-! ### Records and exits -/

/-- An edge of the records leads from one vertex to another. -/
def Joins (rs : List Record) (a b : Vertex) : Prop :=
  ∃ r ∈ rs, ∃ e ∈ r.edges, e.source = some a ∧ e.target = some b

/-- One of the exits leaves a vertex. -/
def Open (exits : List Exit) (a : Vertex) : Prop := ∃ e ∈ exits, e.vertex = a

def Piece.vertices (p : Piece) : List Vertex := p.records.map (·.vertex)

@[simp] theorem not_joins_nil : ¬ Joins [] a b := by
  rintro ⟨r, hr, _⟩
  cases hr

@[simp] theorem joins_append : Joins (rs₁ ++ rs₂) a b ↔ Joins rs₁ a b ∨ Joins rs₂ a b := by
  simp only [Joins, List.mem_append]
  grind

theorem joins_cons {r : Record} : Joins (r :: rs) a b ↔ Joins [r] a b ∨ Joins rs a b := by
  rw [← joins_append, List.singleton_append]

@[simp] theorem open_nil : ¬ Open [] a := by
  rintro ⟨e, he, _⟩
  cases he

@[simp] theorem open_append {X Y : List Exit} : Open (X ++ Y) a ↔ Open X a ∨ Open Y a := by
  simp only [Open, List.mem_append]
  grind

@[simp] theorem open_singleton {e : Exit} : Open [e] a ↔ a = e.vertex := by
  simp [Open, eq_comm]

theorem joins_edgesTo : Joins [⟨v, edgesTo w X⟩] a b ↔ b = w ∧ Open X a := by
  simp only [Joins, Open, edgesTo, List.mem_singleton, exists_eq_left, List.mem_map]
  constructor
  · rintro ⟨_, ⟨x, hx, rfl⟩, hs, ht⟩
    exact ⟨(Option.some.inj ht).symm, x, hx, Option.some.inj hs⟩
  · rintro ⟨rfl, x, hx, rfl⟩
    exact ⟨_, ⟨x, hx, rfl⟩, rfl, rfl⟩

theorem joins_edges_append {es es' : List Edge} :
    Joins [⟨v, es ++ es'⟩] a b ↔ Joins [⟨v, es⟩] a b ∨ Joins [⟨v, es'⟩] a b := by
  simp only [Joins, List.mem_singleton, exists_eq_left, List.mem_append]
  grind

/-! ### Agreement -/

/-- The statement visits nothing, and the piece hands the entries on. -/
structure Silent (src : Source) (s : Stmt) (entries : List Exit) (p : Piece) : Prop where
  records : p.records = []
  exits : p.exits = entries
  runs : ∀ xs o, Executes src s xs o ↔ xs = [] ∧ o = .done

/-- The piece is entered at its first record only. From there, the trails along the inner arcs are
what executions visit, and an execution is over where the piece is open. -/
structure Headed (src : Source) (s : Stmt) (entries : List Exit) (p : Piece) (first : Vertex)
    (inner : Vertex → Vertex → Prop) : Prop where
  head : ∃ edges rest, p.records = ⟨first, edges⟩ :: rest
  arcs : ∀ a b, Joins p.records a b ↔ inner a b ∨ b = first ∧ Open entries a
  within : ∀ a b, inner a b → a ∈ p.vertices ∧ b ∈ p.vertices
  exits : ∀ a, Open p.exits a → a ∈ p.vertices
  runs : ∀ xs o, Executes src s xs o → ∃ b, Trail inner first xs b ∧ (o = .done → Open p.exits b)
  trails : ∀ xs b, Trail inner first xs b →
    Begins src s xs ∧ (Open p.exits b → Executes src s xs .done)

/-- The piece agrees with the statement. -/
def Adequate (src : Source) (s : Stmt) (entries : List Exit) (p : Piece) : Prop :=
  Silent src s entries p ∨ ∃ first inner, Headed src s entries p first inner

namespace Headed

theorem first_mem (h : Headed src s E p first inner) : first ∈ p.vertices := by
  obtain ⟨edges, rest, hp⟩ := h.head
  simp [Piece.vertices, hp]

theorem last_mem (h : Headed src s E p first inner) (ht : Trail inner first xs b) :
    b ∈ p.vertices := by
  rcases ht.last with ⟨-, rfl⟩ | ⟨a, hab⟩
  · exact h.first_mem
  · exact (h.within a b hab).2

theorem congr (h : Headed src s E p first inner)
    (hs : ∀ xs o, Executes src s xs o ↔ Executes src s₁ xs o) :
    Headed src s₁ E p first inner where
  head := h.head
  arcs := h.arcs
  within := h.within
  exits := h.exits
  runs xs o hx := h.runs xs o ((hs xs o).mpr hx)
  trails xs b ht := by
    obtain ⟨⟨ys, o, hy, hp⟩, hdone⟩ := h.trails xs b ht
    exact ⟨⟨ys, o, (hs ys o).mp hy, hp⟩, fun hb => (hs xs .done).mp (hdone hb)⟩

end Headed

namespace Adequate

theorem congr (h : Adequate src s E p) (hs : ∀ xs o, Executes src s xs o ↔ Executes src s₁ xs o) :
    Adequate src s₁ E p := by
  rcases h with h | ⟨first, inner, h⟩
  · exact .inl ⟨h.records, h.exits, fun xs o => (hs xs o).symm.trans (h.runs xs o)⟩
  · exact .inr ⟨first, inner, h.congr hs⟩

theorem joins_within (h : Adequate src s E p) (hj : Joins p.records a b) :
    (a ∈ p.vertices ∨ Open E a) ∧ b ∈ p.vertices := by
  rcases h with h | ⟨first, inner, h⟩
  · rw [h.records] at hj
    exact (not_joins_nil hj).elim
  · rcases (h.arcs a b).mp hj with hi | ⟨rfl, ha⟩
    · exact ⟨.inl (h.within a b hi).1, (h.within a b hi).2⟩
    · exact ⟨.inr ha, h.first_mem⟩

theorem open_within (h : Adequate src s E p) (ha : Open p.exits a) : a ∈ p.vertices ∨ Open E a := by
  rcases h with h | ⟨first, inner, h⟩
  · exact .inr (h.exits ▸ ha)
  · exact .inl (h.exits a ha)

/-- Entered from an open vertex, the piece lets every execution pass. -/
theorem runs_from (h : Adequate src s E p) (hv : Open E v) (hx : Executes src s xs o) :
    ∃ b, Trail (Joins p.records) v (v :: xs) b ∧ (o = .done → Open p.exits b) := by
  rcases h with h | ⟨first, inner, h⟩
  · obtain ⟨rfl, rfl⟩ := (h.runs xs o).mp hx
    exact ⟨v, .one, fun _ => h.exits ▸ hv⟩
  · obtain ⟨b, ht, hb⟩ := h.runs xs o hx
    have hin : ∀ a b, inner a b → Joins p.records a b := fun a b hi => (h.arcs a b).mpr (.inl hi)
    exact ⟨b, .cons ((h.arcs v first).mpr (.inr ⟨rfl, hv⟩)) (ht.mono hin), hb⟩

/-- Entered from a single vertex outside, the piece lets nothing else pass. -/
theorem trails_from (h : Adequate src s [⟨v, label⟩] p) (hv : v ∉ p.vertices)
    (ht : Trail (Joins p.records) v xs b) :
    ∃ ys, xs = v :: ys ∧ Begins src s ys ∧ (Open p.exits b → Executes src s ys .done) := by
  rcases h with h | ⟨first, inner, h⟩
  · have hdone := (h.runs [] .done).mpr ⟨rfl, rfl⟩
    rcases ht.last with ⟨rfl, -⟩ | ⟨a, hab⟩
    · exact ⟨[], rfl, hdone.begins, fun _ => hdone⟩
    · rw [h.records] at hab
      exact (not_joins_nil hab).elim
  · have hsplit : xs = [v] ∧ b = v ∨ ∃ ys, xs = v :: ys ∧ Trail inner first ys b := by
      induction ht with
      | one => exact .inl ⟨rfl, rfl⟩
      | @snoc xs a b _ hab ih =>
        right
        rcases ih with ⟨rfl, rfl⟩ | ⟨ys, rfl, hys⟩
        · rcases (h.arcs _ _).mp hab with hi | ⟨rfl, -⟩
          · exact (hv (h.within _ _ hi).1).elim
          · exact ⟨[b], rfl, .one⟩
        · rcases (h.arcs _ _).mp hab with hi | ⟨-, ha⟩
          · exact ⟨ys ++ [b], rfl, .snoc hys hi⟩
          · have hav : a = v := open_singleton.mp ha
            exact (hv (hav ▸ h.last_mem hys)).elim
    rcases hsplit with ⟨rfl, rfl⟩ | ⟨ys, rfl, hys⟩
    · exact ⟨[], rfl, (h.trails _ _ .one).1.nil, fun hb => (hv (h.exits _ hb)).elim⟩
    · exact ⟨ys, rfl, h.trails ys b hys⟩

end Adequate

/-! ### One statement -/

theorem adequate_skip : Adequate src .skip E { exits := E } := by
  refine .inl ⟨rfl, rfl, ?_⟩
  intro xs o
  constructor
  · rintro ⟨⟩
    exact ⟨rfl, rfl⟩
  · rintro ⟨rfl, rfl⟩
    exact .skip

/-- A statement that visits one vertex. -/
theorem adequate_single (hs : ∀ xs o', Executes src s xs o' ↔ xs = [v] ∧ o' = o)
    (hX : ∀ a, Open X a ↔ a = v ∧ o = .done) : Adequate src s E ⟨[⟨v, edgesTo v E⟩], X⟩ := by
  refine .inr ⟨v, fun _ _ => False, ⟨_, [], rfl⟩, ?_, ?_, ?_, ?_, ?_⟩
  · intro a b
    simp [joins_edgesTo]
  · intro a b hi
    exact hi.elim
  · intro a ha
    simp [Piece.vertices, ((hX a).mp ha).1]
  · intro xs o' hx
    obtain ⟨rfl, rfl⟩ := (hs xs o').mp hx
    exact ⟨v, .one, fun hdone => (hX v).mpr ⟨rfl, hdone⟩⟩
  · intro xs b ht
    have hone : xs = [v] := by
      rcases ht.last with ⟨rfl, -⟩ | ⟨a, hab⟩
      · rfl
      · exact hab.elim
    have hx := (hs xs o).mpr ⟨hone, rfl⟩
    exact ⟨hx.begins, fun hb => ((hX b).mp hb).2 ▸ hx⟩

theorem adequate_visit (hv : Vertex.ofLocus src l = .ok v) :
    Adequate src (.visit l) E ⟨[⟨v, edgesTo v E⟩], [{ vertex := v }]⟩ := by
  apply adequate_single (o := .done)
  · intro xs o
    constructor
    · intro hx
      cases hx with
      | visit h =>
        cases hv.symm.trans h
        exact ⟨rfl, rfl⟩
    · rintro ⟨rfl, rfl⟩
      exact .visit hv
  · simp

theorem adequate_ret (hv : Vertex.ofLocus src l = .ok v) :
    Adequate src (.ret l) E ⟨[⟨v, edgesTo v E⟩], []⟩ := by
  apply adequate_single (o := .returned)
  · intro xs o
    constructor
    · intro hx
      cases hx with
      | ret h =>
        cases hv.symm.trans h
        exact ⟨rfl, rfl⟩
    · rintro ⟨rfl, rfl⟩
      exact .ret hv
  · simp

/-! ### One statement after the other -/

theorem executes_seq : Executes src (.seq s₁ s₂) xs o ↔
    (∃ us ws, xs = us ++ ws ∧ Executes src s₁ us .done ∧ Executes src s₂ ws o) ∨
      o = .returned ∧ Executes src s₁ xs .returned := by
  constructor
  · intro h
    cases h with
    | seq h₁ h₂ => exact .inl ⟨_, _, rfl, h₁, h₂⟩
    | seqReturned h₁ => exact .inr ⟨rfl, h₁⟩
  · rintro (⟨us, ws, rfl, h₁, h₂⟩ | ⟨rfl, h₁⟩)
    · exact .seq h₁ h₂
    · exact .seqReturned h₁

theorem executes_seq_silent (h : Silent src s₁ E p) :
    Executes src s₂ xs o ↔ Executes src (.seq s₁ s₂) xs o := by
  simp [executes_seq, h.runs]

theorem executes_seq_of_silent (h : Silent src s₂ E p) :
    Executes src s₁ xs o ↔ Executes src (.seq s₁ s₂) xs o := by
  cases o <;> simp [executes_seq, h.runs]

/-- What follows a statement that never ends normally does not matter. -/
theorem executes_seq_of_not_done (h : ∀ us, ¬ Executes src s₁ us .done) :
    Executes src s₁ xs o ↔ Executes src (.seq s₁ s₂) xs o := by
  cases o <;> simp [executes_seq, h]

/-- Two pieces one after the other. -/
def Piece.followedBy (p₁ p₂ : Piece) : Piece :=
  { records := p₁.records ++ p₂.records, exits := p₂.exits }

theorem Headed.seq {first₁ first₂ : Vertex} {inner₁ inner₂ : Vertex → Vertex → Prop}
    (h₁ : Headed src s₁ E p₁ first₁ inner₁) (h₂ : Headed src s₂ p₁.exits p₂ first₂ inner₂)
    (hd : p₁.vertices.Disjoint p₂.vertices) :
    Headed src (.seq s₁ s₂) E (p₁.followedBy p₂) first₁ fun a b => inner₁ a b ∨
    Joins p₂.records a b where
  head := by
    obtain ⟨edges, rest, hp⟩ := h₁.head
    exact ⟨edges, rest ++ p₂.records, by simp [Piece.followedBy, hp]⟩
  arcs a b := by
    simp only [Piece.followedBy, joins_append, h₁.arcs a b]
    tauto
  within a b hi := by
    simp only [Piece.vertices, Piece.followedBy, List.map_append, List.mem_append]
    rcases hi with hi | hj
    · exact ⟨.inl (h₁.within a b hi).1, .inl (h₁.within a b hi).2⟩
    · rcases (h₂.arcs a b).mp hj with hi | ⟨rfl, ha⟩
      · exact ⟨.inr (h₂.within a b hi).1, .inr (h₂.within a b hi).2⟩
      · exact ⟨.inl (h₁.exits a ha), .inr h₂.first_mem⟩
  exits a ha := by
    simp only [Piece.vertices, Piece.followedBy, List.map_append, List.mem_append]
    exact .inr (h₂.exits a ha)
  runs xs o hx := by
    have hleft : ∀ a b, inner₁ a b → inner₁ a b ∨ Joins p₂.records a b := fun a b => .inl
    have hright : ∀ a b, inner₂ a b → inner₁ a b ∨ Joins p₂.records a b := fun a b hi =>
      .inr ((h₂.arcs a b).mpr (.inl hi))
    rcases executes_seq.mp hx with ⟨us, ws, rfl, hu, hw⟩ | ⟨rfl, hu⟩
    · obtain ⟨a, ht, ha⟩ := h₁.runs us .done hu
      obtain ⟨b, ht', hb⟩ := h₂.runs ws o hw
      have hjoin : Joins p₂.records a first₂ := (h₂.arcs a first₂).mpr (.inr ⟨rfl, ha rfl⟩)
      exact ⟨b, (ht.mono hleft).append (.inr hjoin) (ht'.mono hright), hb⟩
    · obtain ⟨a, ht, -⟩ := h₁.runs xs .returned hu
      exact ⟨a, ht.mono hleft, by simp⟩
  trails xs b ht := by
    -- A trail stays in the first piece or crosses to the second one, from which nothing leads back.
    have hsplit : Trail inner₁ first₁ xs b ∨
        ∃ us ws, xs = us ++ ws ∧ Executes src s₁ us .done ∧ Trail inner₂ first₂ ws b := by
      induction ht with
      | one => exact .inl .one
      | @snoc xs a b _ hab ih =>
        rcases ih with ht | ⟨us, ws, rfl, hu, ht⟩
        · have ha := h₁.last_mem ht
          rcases hab with hi | hj
          · exact .inl (.snoc ht hi)
          · rcases (h₂.arcs a b).mp hj with hi | ⟨rfl, hopen⟩
            · exact (hd ha (h₂.within a b hi).1).elim
            · exact .inr ⟨xs, [b], rfl, (h₁.trails xs a ht).2 hopen, .one⟩
        · have ha := h₂.last_mem ht
          rcases hab with hi | hj
          · exact (hd (h₁.within a b hi).1 ha).elim
          · rcases (h₂.arcs a b).mp hj with hi | ⟨-, hopen⟩
            · exact .inr ⟨us, ws ++ [b], by simp, hu, .snoc ht hi⟩
            · exact (hd (h₁.exits a hopen) ha).elim
    rcases hsplit with ht | ⟨us, ws, rfl, hu, ht⟩
    · have hlive : Begins src s₂ [] := (h₂.trails _ _ .one).1.nil
      exact ⟨(h₁.trails xs b ht).1.seq_left hlive,
        fun hb => (hd (h₁.last_mem ht) (h₂.exits b hb)).elim⟩
    · obtain ⟨hw, hdone⟩ := h₂.trails ws b ht
      exact ⟨.seq_right hu hw, fun hb => .seq hu (hdone hb)⟩

theorem Adequate.seq (hE : E ≠ []) (h₁ : Adequate src s₁ E p₁)
    (h₂ : p₁.exits ≠ [] → Adequate src s₂ p₁.exits p₂) (hdead : p₁.exits = [] → p₂ = {})
    (hd : p₁.vertices.Disjoint p₂.vertices) :
    Adequate src (.seq s₁ s₂) E (p₁.followedBy p₂) := by
  rcases h₁ with h₁ | ⟨first₁, inner₁, h₁⟩
  · rw [h₁.exits] at h₂
    have hp : p₁.followedBy p₂ = p₂ := by simp [Piece.followedBy, h₁.records]
    rw [hp]
    exact (h₂ hE).congr fun xs o => executes_seq_silent h₁
  by_cases hX : p₁.exits = []
  · have hp : p₁.followedBy p₂ = p₁ := by simp [Piece.followedBy, hdead hX, ← hX]
    have hnot : ∀ us, ¬ Executes src s₁ us .done := by
      intro us hu
      obtain ⟨b, -, hb⟩ := h₁.runs us .done hu
      exact open_nil (hX ▸ hb rfl)
    rw [hp]
    exact .inr ⟨first₁, inner₁, h₁.congr fun xs o => executes_seq_of_not_done hnot⟩
  · rcases h₂ hX with h₂ | ⟨first₂, inner₂, h₂⟩
    · have hp : p₁.followedBy p₂ = p₁ := by simp [Piece.followedBy, h₂.records, h₂.exits]
      rw [hp]
      exact .inr ⟨first₁, inner₁, h₁.congr fun xs o => executes_seq_of_silent h₂⟩
    · exact .inr ⟨first₁, _, h₁.seq h₂ hd⟩

/-! ### Branches -/

/-- A head with two pieces that are entered from it alone. -/
def Piece.forked (v : Vertex) (entries : List Exit) (yes no : Piece) : Piece where
  records := ⟨v, edgesTo v entries⟩ :: (yes.records ++ no.records)
  exits := yes.exits ++ no.exits

/-- What lies in a piece or is its only entry is in no list apart from both. -/
theorem not_mem_apart (hv : v ∉ vs) (hd : p.vertices.Disjoint vs)
    (ha : a ∈ p.vertices ∨ Open [⟨v, label⟩] a) :
    a ∉ vs := by
  intro hvs
  rcases ha with ha | ha
  · exact hd ha hvs
  · have hav : a = v := open_singleton.mp ha
    exact hv (hav ▸ hvs)

section Fork

variable {l₁ l₂ : String} (h₁ : Adequate src s₁ [⟨v, l₁⟩] p₁) (h₂ : Adequate src s₂ [⟨v, l₂⟩] p₂)
  (hv₁ : v ∉ p₁.vertices) (hv₂ : v ∉ p₂.vertices) (hd : p₁.vertices.Disjoint p₂.vertices)

include h₁ h₂ hv₁ hv₂ hd

/-- From a common head a trail goes into one of two pieces, and stays there. -/
theorem trail_fork (ht : Trail (Joins (p₁.records ++ p₂.records)) v xs b) :
    xs = [v] ∧ b = v ∨ b ∈ p₁.vertices ∧ Trail (Joins p₁.records) v xs b ∨
      b ∈ p₂.vertices ∧ Trail (Joins p₂.records) v xs b := by
  induction ht with
  | one => exact .inl ⟨rfl, rfl⟩
  | @snoc xs a b _ hab ih =>
    right
    rcases joins_append.mp hab with hj | hj
    · obtain ⟨ha, hb⟩ := h₁.joins_within hj
      refine .inl ⟨hb, ?_⟩
      rcases ih with ⟨rfl, rfl⟩ | ⟨-, ht⟩ | ⟨ha₂, -⟩
      · exact .snoc .one hj
      · exact .snoc ht hj
      · exact (not_mem_apart hv₂ hd ha ha₂).elim
    · obtain ⟨ha, hb⟩ := h₂.joins_within hj
      refine .inr ⟨hb, ?_⟩
      rcases ih with ⟨rfl, rfl⟩ | ⟨ha₁, -⟩ | ⟨-, ht⟩
      · exact .snoc .one hj
      · exact (not_mem_apart hv₁ hd.symm ha ha₁).elim
      · exact .snoc ht hj

theorem branch_of_trail (hv : Vertex.ofLocus src l = .ok v)
    (ht : Trail (Joins (p₁.records ++ p₂.records)) v xs b) : Begins src (.branch l s₁ s₂) xs ∧
      (Open (p₁.exits ++ p₂.exits) b → Executes src (.branch l s₁ s₂) xs .done) := by
  rw [open_append]
  rcases trail_fork h₁ h₂ hv₁ hv₂ hd ht with ⟨rfl, rfl⟩ | ⟨hb, ht⟩ | ⟨hb, ht⟩
  · obtain ⟨ys, hys, hbegin, hdone₁⟩ := h₁.trails_from hv₁ .one
    cases hys
    obtain ⟨ys, hys, -, hdone₂⟩ := h₂.trails_from hv₂ .one
    cases hys
    refine ⟨hbegin.yes hv, ?_⟩
    rintro (ho | ho)
    · exact .yes hv (hdone₁ ho)
    · exact .no hv (hdone₂ ho)
  · obtain ⟨ys, rfl, hbegin, hdone⟩ := h₁.trails_from hv₁ ht
    refine ⟨hbegin.yes hv, ?_⟩
    rintro (ho | ho)
    · exact .yes hv (hdone ho)
    · exact (not_mem_apart hv₁ hd.symm (h₂.open_within ho) hb).elim
  · obtain ⟨ys, rfl, hbegin, hdone⟩ := h₂.trails_from hv₂ ht
    refine ⟨hbegin.no hv, ?_⟩
    rintro (ho | ho)
    · exact (not_mem_apart hv₂ hd (h₁.open_within ho) hb).elim
    · exact .no hv (hdone ho)

end Fork

theorem Adequate.branch (hv : Vertex.ofLocus src l = .ok v) (h₁ : Adequate src s₁ [⟨v, "Y"⟩] p₁)
    (h₂ : Adequate src s₂ [⟨v, "N"⟩] p₂) (hv₁ : v ∉ p₁.vertices) (hv₂ : v ∉ p₂.vertices)
    (hd : p₁.vertices.Disjoint p₂.vertices) :
    Adequate src (.branch l s₁ s₂) E (.forked v E p₁ p₂) := by
  have hmem : ∀ a, a ∈ (Piece.forked v E p₁ p₂).vertices ↔
      a = v ∨ a ∈ p₁.vertices ∨ a ∈ p₂.vertices := by
    simp [Piece.vertices, Piece.forked]
  refine .inr ⟨v, Joins (p₁.records ++ p₂.records), ⟨_, _, rfl⟩, ?_, ?_, ?_, ?_, ?_⟩
  · intro a b
    rw [Piece.forked, joins_cons, joins_edgesTo, or_comm]
  · intro a b hj
    rw [hmem, hmem]
    rcases joins_append.mp hj with hj | hj
    · obtain ⟨ha, hb⟩ := h₁.joins_within hj
      rw [open_singleton] at ha
      tauto
    · obtain ⟨ha, hb⟩ := h₂.joins_within hj
      rw [open_singleton] at ha
      tauto
  · intro a ha
    rw [hmem]
    rcases open_append.mp ha with ha | ha
    · rcases h₁.open_within ha with ha | ha
      · exact .inr (.inl ha)
      · exact .inl (open_singleton.mp ha)
    · rcases h₂.open_within ha with ha | ha
      · exact .inr (.inr ha)
      · exact .inl (open_singleton.mp ha)
  · intro xs o hx
    cases hx with
    | yes h hx =>
      cases hv.symm.trans h
      obtain ⟨b, ht, hb⟩ := h₁.runs_from (open_singleton.mpr rfl) hx
      exact ⟨b, ht.mono fun a b hj => joins_append.mpr (.inl hj),
        fun ho => open_append.mpr (.inl (hb ho))⟩
    | no h hx =>
      cases hv.symm.trans h
      obtain ⟨b, ht, hb⟩ := h₂.runs_from (open_singleton.mpr rfl) hx
      exact ⟨b, ht.mono fun a b hj => joins_append.mpr (.inr hj),
        fun ho => open_append.mpr (.inr (hb ho))⟩
  · exact fun xs b ht => branch_of_trail h₁ h₂ hv₁ hv₂ hd hv ht

/-! ### Loops -/

/-- A head with a piece that is entered from it and leads back to it. -/
def Piece.looped (v : Vertex) (entries : List Exit) (body : Piece) : Piece :=
  { records := ⟨v, edgesTo v entries ++ edgesTo v body.exits⟩ :: body.records, exits := [⟨v, "N"⟩] }

/-- The arcs of a loop: those of its body, and the way back to the head. -/
def Around (v : Vertex) (body : Piece) (a b : Vertex) : Prop :=
  Joins body.records a b ∨ b = v ∧ Open body.exits a

/-- Every execution of a loop is a trail from its head. -/
theorem trail_of_loop (hv : Vertex.ofLocus src l = .ok v) (h : Adequate src s [⟨v, label⟩] p)
    (hx : Executes src (.loop l s) xs o) :
    ∃ b, Trail (Around v p) v xs b ∧ (o = .done → b = v) := by
  generalize hs : Stmt.loop l s = s' at hx
  induction hx with
  | leave h' =>
    cases hs
    cases hv.symm.trans h'
    exact ⟨v, .one, fun _ => rfl⟩
  | again h' hbody _ _ ih =>
    cases hs
    cases hv.symm.trans h'
    obtain ⟨a, ht, ha⟩ := h.runs_from (open_singleton.mpr rfl) hbody
    obtain ⟨b, ht', hb⟩ := ih rfl
    exact ⟨b, (ht.mono fun _ _ => .inl).append (.inr ⟨rfl, ha rfl⟩) ht', hb⟩
  | loopReturned h' hbody _ =>
    cases hs
    cases hv.symm.trans h'
    obtain ⟨a, ht, -⟩ := h.runs_from (open_singleton.mpr rfl) hbody
    exact ⟨a, ht.mono fun _ _ => .inl, by simp⟩
  | _ => cases hs

/-- A trail in a loop is some rounds and a part of a further one. -/
theorem loop_of_trail (hv : Vertex.ofLocus src l = .ok v) (h : Adequate src s [⟨v, label⟩] p)
    (hvp : v ∉ p.vertices) (ht : Trail (Around v p) v xs b) :
    ∃ us ws, xs = us ++ ws ∧ Executes src (.loop l s) us .done ∧
    Trail (Joins p.records) v (v :: ws) b := by
  induction ht with
  | one => exact ⟨[v], [], rfl, .leave hv, .one⟩
  | @snoc xs a b _ hab ih =>
    obtain ⟨us, ws, rfl, hu, ht⟩ := ih
    rcases hab with hj | ⟨rfl, hopen⟩
    · exact ⟨us, ws ++ [b], by simp, hu, .snoc ht hj⟩
    · obtain ⟨ys, hys, -, hdone⟩ := h.trails_from hvp ht
      cases hys
      refine ⟨us ++ (ws ++ [b]), [], by simp, hu.loop_go_on (.seq (hdone hopen) (.leave hv)), .one⟩

theorem Adequate.loop (hv : Vertex.ofLocus src l = .ok v) (h : Adequate src s [⟨v, "Y"⟩] p)
    (hvp : v ∉ p.vertices) : Adequate src (.loop l s) E (.looped v E p) := by
  have hmem : ∀ a, a ∈ (Piece.looped v E p).vertices ↔ a = v ∨ a ∈ p.vertices := by
    simp [Piece.vertices, Piece.looped]
  refine .inr ⟨v, Around v p, ⟨_, _, rfl⟩, ?_, ?_, ?_, ?_, ?_⟩
  · intro a b
    rw [Piece.looped, joins_cons, joins_edges_append, joins_edgesTo, joins_edgesTo, Around]
    tauto
  · intro a b hi
    rw [hmem, hmem]
    rcases hi with hj | ⟨rfl, ha⟩
    · obtain ⟨ha, hb⟩ := h.joins_within hj
      rw [open_singleton] at ha
      tauto
    · have ha' := h.open_within ha
      rw [open_singleton] at ha'
      tauto
  · intro a ha
    exact (hmem a).mpr (.inl (open_singleton.mp ha))
  · intro xs o hx
    obtain ⟨b, ht, hb⟩ := trail_of_loop hv h hx
    exact ⟨b, ht, fun ho => open_singleton.mpr (hb ho)⟩
  · intro xs b ht
    obtain ⟨us, ws, rfl, hu, ht⟩ := loop_of_trail hv h hvp ht
    obtain ⟨ys, hys, hbegin, -⟩ := h.trails_from hvp ht
    cases hys
    refine ⟨hbegin.loop hv hu, ?_⟩
    intro hb
    cases open_singleton.mp hb
    rcases ht.last with ⟨hws, -⟩ | ⟨a, hab⟩
    · cases hws
      simpa using hu
    · exact (hvp (h.joins_within hab).2).elim

/-- Files an edge under the first record: the way back from a condition. -/
def withBack (c : Vertex) : List Record → List Record
  | [] => []
  | r :: rs => { r with edges := r.edges ++ edgesTo r.vertex [⟨c, "Y"⟩] } :: rs

/-- A piece that leads to a condition, from which a way leads back to the first record. -/
def Piece.repeated (c : Vertex) (body : Piece) : Piece :=
  { records := withBack c (body.records ++ [⟨c, edgesTo c body.exits⟩]), exits := [⟨c, "N"⟩] }

theorem joins_withBack {edges : List Edge} : Joins (withBack c (⟨v, edges⟩ :: rs)) a b ↔
    Joins (⟨v, edges⟩ :: rs) a b ∨ b = v ∧ a = c := by
  have hcons : Joins (⟨v, edges⟩ :: rs) a b ↔ Joins [⟨v, edges⟩] a b ∨ Joins rs a b := joins_cons
  rw [hcons, withBack, joins_cons, joins_edges_append, joins_edgesTo, open_singleton]
  tauto

theorem vertices_repeated : (Piece.repeated c p).vertices = p.vertices ++ [c] := by
  unfold Piece.repeated Piece.vertices
  cases p.records <;> simp [withBack]

/-- Around a body that visits nothing, the condition is visited again and again. -/
theorem Silent.doLoop (hc : conditionVertex src l = .ok c) (h : Silent src s E p) :
    Headed src (.doLoop s l) E (.repeated c p) c fun a b => a = c ∧ b = c where
  head := ⟨_, [], by rw [Piece.repeated, h.records]; rfl⟩
  arcs a b := by
    simp only [Piece.repeated, h.records, h.exits, List.nil_append, joins_withBack, joins_edgesTo]
    tauto
  within a b hi := by
    simp [vertices_repeated, hi.1, hi.2]
  exits a ha := by
    simp [vertices_repeated, show a = c from open_singleton.mp ha]
  runs xs o hx := by
    refine ⟨c, ?_, fun _ => open_singleton.mpr rfl⟩
    generalize hs : Stmt.doLoop s l = s' at hx
    induction hx with
    | doLeave hbody hc' =>
      cases hs
      cases hc.symm.trans hc'
      cases ((h.runs _ _).mp hbody).1
      exact .one
    | doAgain hbody hc' _ _ ih =>
      cases hs
      cases hc.symm.trans hc'
      cases ((h.runs _ _).mp hbody).1
      exact .cons ⟨rfl, rfl⟩ (ih rfl)
    | doReturned hbody _ =>
      cases hs
      cases ((h.runs _ _).mp hbody).2
    | _ => cases hs
  trails xs b ht := by
    have hround : Executes src (.doLoop s l) [c] .done :=
      .doLeave ((h.runs [] .done).mpr ⟨rfl, rfl⟩) hc
    have hdone : Executes src (.doLoop s l) xs .done := by
      induction ht with
      | one => exact hround
      | snoc _ hab ih =>
        obtain ⟨-, rfl⟩ := hab
        exact ih.do_go_on hround
    exact ⟨hdone.begins, fun _ => hdone⟩

/-- The arcs of a do loop: those of its body, the way to the condition and the way back. -/
def Until (c first : Vertex) (inner : Vertex → Vertex → Prop) (exits : List Exit) (a b : Vertex) :
    Prop :=
  inner a b ∨ b = c ∧ Open exits a ∨ a = c ∧ b = first

theorem Headed.trail_of_doLoop (hc : conditionVertex src l = .ok c)
    (h : Headed src s E p first inner) (hx : Executes src (.doLoop s l) xs o) :
    ∃ b, Trail (Until c first inner p.exits) first xs b ∧ (o = .done → b = c) := by
  have hin : ∀ a b, inner a b → Until c first inner p.exits a b := fun _ _ => .inl
  generalize hs : Stmt.doLoop s l = s' at hx
  induction hx with
  | doLeave hbody hc' =>
    cases hs
    cases hc.symm.trans hc'
    obtain ⟨a, ht, ha⟩ := h.runs _ _ hbody
    exact ⟨c, .snoc (ht.mono hin) (.inr (.inl ⟨rfl, ha rfl⟩)), fun _ => rfl⟩
  | doAgain hbody hc' _ _ ih =>
    cases hs
    cases hc.symm.trans hc'
    obtain ⟨a, ht, ha⟩ := h.runs _ _ hbody
    obtain ⟨b, ht', hb⟩ := ih rfl
    exact ⟨b, (ht.mono hin).append (.inr (.inl ⟨rfl, ha rfl⟩)) (.cons (.inr (.inr ⟨rfl, rfl⟩)) ht'),
      hb⟩
  | doReturned hbody _ =>
    cases hs
    obtain ⟨a, ht, -⟩ := h.runs _ _ hbody
    exact ⟨a, ht.mono hin, by simp⟩
  | _ => cases hs

/-- A trail in a do loop is some rounds, or some rounds and a part of a further one. -/
theorem Headed.doLoop_of_trail (hc : conditionVertex src l = .ok c)
    (h : Headed src s E p first inner) (hcp : c ∉ p.vertices)
    (ht : Trail (Until c first inner p.exits) first xs b) :
    b = c ∧ Executes src (.doLoop s l) xs .done ∨
      ∃ us ws, xs = us ++ ws ∧ (us = [] ∨ Executes src (.doLoop s l) us .done) ∧
      Trail inner first ws b := by
  induction ht with
  | one => exact .inr ⟨[], [first], rfl, .inl rfl, .one⟩
  | @snoc xs a b _ hab ih =>
    rcases ih with ⟨rfl, hdone⟩ | ⟨us, ws, rfl, hus, ht⟩
    · rcases hab with hi | ⟨-, ha⟩ | ⟨-, rfl⟩
      · exact (hcp (h.within _ _ hi).1).elim
      · exact (hcp (h.exits _ ha)).elim
      · exact .inr ⟨xs, [b], rfl, .inr hdone, .one⟩
    · rcases hab with hi | ⟨rfl, ha⟩ | ⟨rfl, -⟩
      · exact .inr ⟨us, ws ++ [b], by simp, hus, .snoc ht hi⟩
      · have hround : Executes src (.doLoop s l) (ws ++ [b]) .done :=
          .doLeave ((h.trails ws a ht).2 ha) hc
        left
        refine ⟨rfl, ?_⟩
        rcases hus with rfl | hus
        · exact hround
        · rw [List.append_assoc]
          exact hus.do_go_on hround
      · exact (hcp (h.last_mem ht)).elim

theorem Headed.doLoop (hc : conditionVertex src l = .ok c) (h : Headed src s E p first inner)
    (hcp : c ∉ p.vertices) :
    Headed src (.doLoop s l) E (.repeated c p) first (Until c first inner p.exits) where
  head := by
    obtain ⟨edges, rest, hp⟩ := h.head
    exact ⟨_, _, by rw [Piece.repeated, hp]; rfl⟩
  arcs a b := by
    obtain ⟨edges, rest, hp⟩ := h.head
    have harcs := h.arcs a b
    rw [hp] at harcs
    simp only [Piece.repeated, hp, List.cons_append, joins_withBack, Until]
    rw [← List.cons_append, joins_append, harcs, joins_edgesTo]
    constructor
    · rintro (((hi | he) | hx) | ⟨hb, ha⟩)
      · exact .inl (.inl hi)
      · exact .inr he
      · exact .inl (.inr (.inl hx))
      · exact .inl (.inr (.inr ⟨ha, hb⟩))
    · rintro ((hi | hx | ⟨ha, hb⟩) | he)
      · exact .inl (.inl (.inl hi))
      · exact .inl (.inr hx)
      · exact .inr ⟨hb, ha⟩
      · exact .inl (.inl (.inr he))
  within a b hi := by
    simp only [vertices_repeated, List.mem_append, List.mem_singleton]
    rcases hi with hi | ⟨rfl, ha⟩ | ⟨rfl, rfl⟩
    · exact ⟨.inl (h.within a b hi).1, .inl (h.within a b hi).2⟩
    · exact ⟨.inl (h.exits a ha), .inr rfl⟩
    · exact ⟨.inr rfl, .inl h.first_mem⟩
  exits a ha := by
    simp [vertices_repeated, show a = c from open_singleton.mp ha]
  runs xs o hx := by
    obtain ⟨b, ht, hb⟩ := h.trail_of_doLoop hc hx
    exact ⟨b, ht, fun ho => open_singleton.mpr (hb ho)⟩
  trails xs b ht := by
    rcases h.doLoop_of_trail hc hcp ht with ⟨-, hdone⟩ | ⟨us, ws, rfl, hus, ht⟩
    · exact ⟨hdone.begins, fun _ => hdone⟩
    · have hbegin : Begins src (.doLoop s l) ws := (h.trails ws b ht).1.doBody hc
      refine ⟨?_, ?_⟩
      · rcases hus with rfl | hus
        · exact hbegin
        · exact hbegin.doLoop hus
      · intro hb
        cases open_singleton.mp hb
        exact (hcp (h.last_mem ht)).elim

theorem Adequate.doLoop (hc : conditionVertex src l = .ok c) (h : Adequate src s E p)
    (hcp : c ∉ p.vertices) :
    Adequate src (.doLoop s l) E (.repeated c p) := by
  rcases h with h | ⟨first, inner, h⟩
  · exact .inr ⟨c, _, h.doLoop hc⟩
  · exact .inr ⟨first, _, h.doLoop hc hcp⟩

end CrossCall.Flow
