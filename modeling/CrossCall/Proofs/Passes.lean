import CrossCall.Proofs.Forest

/-! The two passes of the dominator computation, whatever they compute. In the first one, vertices
are treated from the last number to the first: each gets a value from its predecessors, waits in the
bucket of the vertex with that number, and is settled when the child above it is linked. The second
one goes the other way and resolves entries that were left relative to other vertices.

What is computed stays open here. `Value v x` is what is known of the value of a treated vertex,
`Fits x v u` of an entry `u` for a vertex `v` of value `x` after the first pass, and `Final u v` of
an entry after the second. -/
namespace CrossCall.Flow

variable {next : Int → List Int} {root d p r u v w x y z : Int} {s : Numbering} {σ τ : Int → Nat}
  {m n : Nat} {f g : Forest} {ps : List Int} {Value : Int → Nat → Prop}
  {Fits : Nat → Int → Int → Prop} {Final : Int → Int → Prop}

/-! ### Loops -/

/-- A loop over a list whose steps succeed and carry an invariant on. -/
theorem foldlM_ok {α β ε : Type} {step : β → α → Except ε β} (I : List α → β → Prop)
    (hstep : ∀ a rest b, I (a :: rest) b → ∃ b', step b a = .ok b' ∧ I rest b') (xs : List α)
    (b : β) (h : I xs b) : ∃ b', xs.foldlM step b = .ok b' ∧ I [] b' := by
  induction xs generalizing b with
  | nil => exact ⟨b, rfl, h⟩
  | cons a rest ih =>
    obtain ⟨b', hb, hi⟩ := hstep a rest b h
    obtain ⟨b'', hb', hi'⟩ := ih b' hi
    refine ⟨b'', ?_, hi'⟩
    rw [List.foldlM_cons, hb]
    exact hb'

namespace Spans

/-- A loop over the vertices from a number down to the second. -/
theorem foldlM_down {P : Nat → Forest → Prop} {step : Forest → Int → Except Fault Forest}
    (h : Spans next root s)
    (hstep : ∀ w ∈ s.order, w ≠ root → ∀ f, P (s.num w + 1) f →
      ∃ g, step f w = .ok g ∧ P (s.num w) g)
    (hn : n < s.order.length) (hf : P (n + 1) f) :
    ∃ g, (s.order.take (n + 1)).tail.reverse.foldlM step f = .ok g ∧ P 1 g := by
  induction n generalizing f with
  | zero =>
    refine ⟨f, ?_, hf⟩
    cases hx : s.order <;> simp [pure, Except.pure]
  | succ n ih =>
    obtain ⟨w, hw⟩ : ∃ w, s.order[n + 1]? = some w := ⟨_, List.getElem?_eq_getElem hn⟩
    have hwm : w ∈ s.order := List.mem_of_getElem? hw
    have hnw : s.num w = n + 1 := Numbering.num_of_getElem? h.nodup hw
    have hr : w ≠ root := by
      rintro rfl
      rw [h.num_root] at hnw
      omega
    obtain ⟨g, hg, hnext⟩ := hstep w hwm hr f (hnw.symm ▸ hf)
    obtain ⟨g', hg', hlast⟩ := ih (by omega) (hnw ▸ hnext)
    refine ⟨g', ?_, hlast⟩
    have htake : (s.order.take (n + 2)).tail.reverse =
        w :: (s.order.take (n + 1)).tail.reverse := by
      have hne : s.order.take (n + 1) ≠ [] := by
        intro he
        have := congrArg List.length he
        simp at this
        simp [this] at hn
      rw [List.take_add_one, hw, List.tail_append_of_ne_nil hne]
      simp
    rw [htake, List.foldlM_cons, hg]
    exact hg'

/-- A loop over the vertices from a number on. -/
theorem foldlM_up {P : Nat → Forest → Prop} {step : Forest → Int → Except Fault Forest}
    (h : Spans next root s)
    (hstep : ∀ w ∈ s.order, w ≠ root → ∀ f, P (s.num w) f →
      ∃ g, step f w = .ok g ∧ P (s.num w + 1) g)
    (hpos : 0 < n) (hn : n ≤ s.order.length) (hf : P n f) :
    ∃ g, (s.order.drop n).foldlM step f = .ok g ∧ P s.order.length g := by
  induction hk : s.order.length - n generalizing n f with
  | zero =>
    obtain rfl : n = s.order.length := by omega
    refine ⟨f, ?_, hf⟩
    rw [List.drop_eq_nil_of_le (Nat.le_refl _)]
    rfl
  | succ k ih =>
    obtain ⟨w, hw⟩ : ∃ w, s.order[n]? = some w := ⟨_, List.getElem?_eq_getElem (by omega)⟩
    have hwm : w ∈ s.order := List.mem_of_getElem? hw
    have hnw : s.num w = n := Numbering.num_of_getElem? h.nodup hw
    have hr : w ≠ root := by
      rintro rfl
      rw [h.num_root] at hnw
      omega
    obtain ⟨g, hg, hnext⟩ := hstep w hwm hr f (hnw.symm ▸ hf)
    obtain ⟨g', hg', hlast⟩ := ih (by omega) (by omega) (hnw ▸ hnext) (by omega)
    refine ⟨g', ?_, hlast⟩
    rw [List.drop_eq_getElem?_toList_append, hw, Option.toList_some, List.singleton_append,
      List.foldlM_cons, hg]
    exact hg'

end Spans

/-! ### Values -/

/-- Vertices before the threshold have their number for a value, and the others that of a vertex
strictly above. -/
structure Valued (s : Numbering) (Value : Int → Nat → Prop) (σ : Int → Nat) (n : Nat) : Prop where
  low : ∀ v ∈ s.order, s.num v < n → σ v = s.num v
  high : ∀ v ∈ s.order, n ≤ s.num v → Value v (σ v) ∧ ∃ d, s.Above d v ∧ d ≠ v ∧ σ v = s.num d

/-- The outcome of a look at the predecessors `ps` of `w`: its value `x` is the least one found.
While the value goes down it may be found itself, so what is found is found under some earlier value
`y`. -/
structure Relaxed (s : Numbering) (σ : Int → Nat) (w : Int) (ps : List Int) (f g : Forest)
    (x : Nat) : Prop where
  linked : Linked s (Function.update σ w x) (s.num w + 1) g
  idom : g.idom = f.idom
  bucket : g.bucket = f.bucket
  bound : ∀ v ∈ ps, ∃ y r u, Found s (Function.update σ w y) (s.num w + 1) r v u ∧
    x ≤ Function.update σ w y u
  attained : x = σ w ∨ ∃ v ∈ ps, ∃ y r u, Found s (Function.update σ w y) (s.num w + 1) r v u ∧
    u ≠ w ∧ x = σ u ∧ x < σ w

theorem Linked.relax_all (hl : Linked s σ (s.num w + 1) f) (hs : Spans next root s)
    (hw : w ∈ s.order) (hps : ∀ v ∈ ps, v ∈ s.order) :
    ∃ g x, ps.foldlM (Forest.relax s.order.length w) f = .ok g ∧ Relaxed s σ w ps f g x := by
  let Bounded (v : Int) (x : Nat) : Prop :=
    ∃ y r u, Found s (Function.update σ w y) (s.num w + 1) r v u ∧ x ≤ Function.update σ w y u
  let I : List Int → Forest → Prop := fun rest g => (∀ v ∈ rest, v ∈ ps) ∧ ∃ x,
    Linked s (Function.update σ w x) (s.num w + 1) g ∧ g.idom = f.idom ∧ g.bucket = f.bucket ∧
      (∀ v ∈ ps, v ∈ rest ∨ Bounded v x) ∧ x ≤ σ w ∧
      (x = σ w ∨ ∃ v ∈ ps, ∃ y r u, Found s (Function.update σ w y) (s.num w + 1) r v u ∧ u ≠ w ∧
        x = σ u ∧ x < σ w)
  have hstart : I ps f :=
    ⟨fun _ h => h, σ w, by rwa [Function.update_eq_self], rfl, rfl, fun _ h => .inl h,
      Nat.le_refl _, .inl rfl⟩
  have hstep : ∀ v rest g, I (v :: rest) g →
      ∃ g', g.relax s.order.length w v = .ok g' ∧ I rest g' := by
    intro v rest g ⟨hmem, x, hl, hidom, hbucket, hbound, hle, hattained⟩
    have hv := hmem v List.mem_cons_self
    obtain ⟨r, u, g', hfound, hrun, hl', hidom', hbucket'⟩ := hl.relax hs hw (hps v hv)
    rw [Function.update_idem, Function.update_self] at hl'
    refine ⟨g', hrun, fun v hv => hmem v (List.mem_cons_of_mem _ hv), _, hl', hidom'.trans hidom,
      hbucket'.trans hbucket, ?_, by omega, ?_⟩
    · intro z hz
      rcases hbound z hz with hz | ⟨y, r, u, hz, hx⟩
      · rcases List.mem_cons.mp hz with rfl | hz
        · exact .inr ⟨x, r, u, hfound, Nat.min_le_left _ _⟩
        · exact .inl hz
      · exact .inr ⟨y, r, u, hz, Nat.le_trans (Nat.min_le_right _ _) hx⟩
    · by_cases hlt : Function.update σ w x u < x
      · -- The value went down, so it is not its own that was found.
        have huw : u ≠ w := by
          rintro rfl
          simp at hlt
        rw [Function.update_of_ne huw] at hlt ⊢
        rw [Nat.min_eq_left (Nat.le_of_lt hlt)]
        exact .inr ⟨v, hv, x, r, u, hfound, huw, rfl, by omega⟩
      · rw [Nat.min_eq_right (by omega)]
        exact hattained
  obtain ⟨g, hrun, _, x, hl', hidom, hbucket, hbound, _, hattained⟩ := foldlM_ok I hstep ps f hstart
  exact ⟨g, x, hrun, hl', hidom, hbucket, fun v hv => (hbound v hv).resolve_left (by simp),
    hattained⟩

theorem Valued.update {x : Nat} (h : Valued s Value σ (s.num w + 1)) (hx : Value w x)
    (hd : ∃ d, s.Above d w ∧ d ≠ w ∧ x = s.num d) :
    Valued s Value (Function.update σ w x) (s.num w) where
  low := by
    intro v hv hlt
    have hvw : v ≠ w := by
      rintro rfl
      omega
    rw [Function.update_of_ne hvw]
    exact h.low v hv (by omega)
  high := by
    intro v hv hle
    by_cases hvw : v = w
    · subst hvw
      rw [Function.update_self]
      exact ⟨hx, hd⟩
    · have hne : s.num v ≠ s.num w := fun he => hvw (Numbering.num_inj hv he)
      rw [Function.update_of_ne hvw]
      exact h.high v hv (by omega)

/-! ### Buckets -/

/-- `v` waits at `d`, whose number is its value, for the child of `d` above it, which has a number
before `m`. -/
structure Waits (s : Numbering) (σ : Int → Nat) (n m : Nat) (d v : Int) : Prop where
  mem : v ∈ s.order
  treated : n ≤ s.num v
  value : σ v = s.num d
  above : s.Above d v
  ne : d ≠ v
  child : ∀ c, s.parent.get? c = some d → s.Above c v → s.num c < m

/-- Who does not wait at the parent of `w` does not wait for `w`. -/
theorem Waits.earlier (h : Waits s σ (s.num w) (s.num w + 1) d v) (hw : w ∈ s.order)
    (hp : s.parent.get? w = some p) (hd : d ≠ p) : Waits s σ (s.num w) (s.num w) d v := by
  refine ⟨h.mem, h.treated, h.value, h.above, h.ne, ?_⟩
  intro c hc hcv
  have hlt := h.child c hc hcv
  have hne : s.num c ≠ s.num w := by
    intro he
    rw [← Numbering.num_inj hw he.symm, hp] at hc
    cases hc
    exact hd rfl
  omega

/-- The state when the vertices numbered from `n` on have been treated and those from `m` on are
linked. Nobody waits at `0`: who is to wait there keeps the `0` it was entered with. -/
structure Progress (s : Numbering) (Value : Int → Nat → Prop) (Fits : Nat → Int → Int → Prop)
    (σ : Int → Nat) (n m : Nat) (f : Forest) : Prop where
  valued : Valued s Value σ n
  linked : Linked s σ m f
  bucket : ∀ d ∈ s.order, ∃ b, f.bucket.get? d = some b
  waiting : ∀ d b, d ≠ 0 → f.bucket.get? d = some b → ∀ v ∈ b, Waits s σ n m d v
  blank : ∀ v ∈ s.order, s.num v < n → f.idom.get? v = some 0
  settled : ∀ v ∈ s.order, n ≤ s.num v →
    (∃ d b, d ≠ 0 ∧ f.bucket.get? d = some b ∧ v ∈ b) ∨ ∃ u, f.idom.get? v = some u ∧ Fits (σ v) v u

namespace Progress

/-- A vertex that has its value is put into the bucket of the vertex with that number. -/
theorem deposit {x : Nat} {bd : List Int}
    (h : Progress s Value Fits σ (s.num w + 1) (s.num w + 1) f) (hs : Spans next root s)
    (hw : w ∈ s.order) (hg : Relaxed s σ w ps f g x) (hx : Value w x) (hdw : s.Above d w)
    (hne : d ≠ w) (hd : x = s.num d) (hfits : d = 0 → Fits x w 0)
    (hbd : g.bucket.get? d = some bd) :
    Progress s Value Fits (Function.update σ w x) (s.num w) (s.num w + 1)
      { g with bucket := g.bucket.insert d (bd ++ [w]) } := by
  have hkept : ∀ v, s.num w + 1 ≤ s.num v → Function.update σ w x v = σ v := by
    intro v hv
    rw [Function.update_of_ne]
    rintro rfl
    omega
  have hold : ∀ y b, y ≠ 0 → g.bucket.get? y = some b → ∀ v ∈ b,
      Waits s (Function.update σ w x) (s.num w) (s.num w + 1) y v := by
    intro y b hy0 hb v hv
    have hwaits := h.waiting y b hy0 (hg.bucket ▸ hb) v hv
    exact ⟨hwaits.mem, Nat.le_of_succ_le hwaits.treated, hkept v hwaits.treated ▸ hwaits.value,
      hwaits.above, hwaits.ne, hwaits.child⟩
  refine ⟨h.valued.update hx ⟨d, hdw, hne, hd⟩, ⟨hg.linked.semi, hg.linked.low, hg.linked.high⟩, ?_,
    ?_, ?_, ?_⟩
  · intro y hy
    rw [Table.get?_insert]
    split
    · exact ⟨_, rfl⟩
    · exact hg.bucket ▸ h.bucket y hy
  · intro y b hy0 hb v hv
    rw [Table.get?_insert] at hb
    split at hb
    · rename_i hy
      cases hb
      rcases List.mem_append.mp hv with hv | hv
      · exact hold y bd hy0 (hy ▸ hbd) v hv
      · rw [List.mem_singleton.mp hv, hy]
        refine ⟨hw, Nat.le_refl _, by simpa using hd, hdw, hne, ?_⟩
        exact fun c _ hcw => Nat.lt_succ_of_le (hs.above_le hcw hw)
    · exact hold y b hy0 hb v hv
  · intro v hv hlt
    exact (congrArg (·.get? v) hg.idom).trans (h.blank v hv (by omega))
  · intro v hv hle
    by_cases hvw : v = w
    · subst hvw
      by_cases hd0 : d = 0
      · refine .inr ⟨0, (congrArg (·.get? v) hg.idom).trans (h.blank v hv (Nat.lt_succ_self _)), ?_⟩
        rw [Function.update_self]
        exact hfits hd0
      · exact .inl ⟨d, bd ++ [v], hd0, by simp, by simp⟩
    · have hlt : s.num w + 1 ≤ s.num v :=
        Nat.lt_of_le_of_ne hle fun he => hvw (Numbering.num_inj hv he.symm)
      rcases h.settled v hv hlt with ⟨y, b, hy0, hb, hvb⟩ | ⟨u, hu, hfit⟩
      · rw [← hg.bucket] at hb
        by_cases hy : y = d
        · rw [hy, hbd] at hb
          cases hb
          exact .inl ⟨d, bd ++ [w], hy ▸ hy0, by simp, List.mem_append_left _ hvb⟩
        · exact .inl ⟨y, b, hy0, by simpa [hy] using hb, hvb⟩
      · refine .inr ⟨u, (congrArg (·.get? v) hg.idom).trans hu, ?_⟩
        rwa [hkept v hlt]

/-- Below `0` nobody is linked and nobody waits. -/
theorem pass (h : Progress s Value Fits σ (s.num w) (s.num w + 1) f) (hw : w ∈ s.order)
    (hp : s.parent.get? w = some 0) : Progress s Value Fits σ (s.num w) (s.num w) f where
  valued := h.valued
  linked := h.linked.pass hp
  bucket := h.bucket
  waiting d b hd hb v hv := (h.waiting d b hd hb v hv).earlier hw hp hd
  blank := h.blank
  settled := h.settled

/-- All who wait for the child of `p` are settled, one after the other. -/
theorem settle_all (hs : Spans next root s) (hl : Linked s σ n f) (b : List Int)
    (hb : ∀ v ∈ b, v ∈ s.order)
    (hfits : ∀ v ∈ b, ∀ r u, Found s σ n r v u → Fits (σ v) v (if σ u < σ v then u else p)) :
    ∃ g, b.foldlM (Forest.settle s.order.length p) f = .ok g ∧ Linked s σ n g ∧
    g.bucket = f.bucket ∧
      (∀ v ∉ b, g.idom.get? v = f.idom.get? v) ∧ ∀ v ∈ b, ∃ u, g.idom.get? v = some u ∧
      Fits (σ v) v u := by
  let I : List Int → Forest → Prop :=
    fun rest g => (∀ v ∈ rest, v ∈ b) ∧ Linked s σ n g ∧ g.bucket = f.bucket ∧
    (∀ v ∉ b, g.idom.get? v = f.idom.get? v) ∧ ∀ v ∈ b, v ∈ rest ∨ ∃ u, g.idom.get? v = some u ∧
    Fits (σ v) v u
  have hstep : ∀ v rest g, I (v :: rest) g →
      ∃ g', g.settle s.order.length p v = .ok g' ∧ I rest g' := by
    intro v rest g ⟨hmem, hl, hbucket, hkept, hset⟩
    have hv := hmem v List.mem_cons_self
    obtain ⟨r, u, ancestor, label, hfound, hrun, hl'⟩ := hl.settle hs (hb v hv) p
    refine ⟨_, hrun, fun v hv => hmem v (List.mem_cons_of_mem _ hv), ⟨hl'.semi, hl'.low, hl'.high⟩,
      hbucket, ?_, ?_⟩
    · intro x hx
      have hxv : x ≠ v := by
        rintro rfl
        exact hx hv
      simpa [hxv] using hkept x hx
    · intro x hx
      by_cases hxv : x = v
      · rw [hxv]
        exact .inr ⟨_, (Table.get?_insert _ _ _ _).trans (if_pos rfl), hfits v hv r u hfound⟩
      · rcases hset x hx with hm | hx
        · exact .inl ((List.mem_cons.mp hm).resolve_left hxv)
        · exact .inr (by simpa [hxv] using hx)
  obtain ⟨g, hrun, _, hl', hbucket, hkept, hset⟩ :=
    foldlM_ok I hstep b f ⟨fun _ h => h, hl, rfl, fun _ _ => rfl, fun _ h => .inl h⟩
  exact ⟨g, hrun, hl', hbucket, hkept, fun v hv => (hset v hv).resolve_left (by simp)⟩

/-- With `w` linked to `p`, those at `p` are settled and their bucket is emptied. -/
theorem empty {bp : List Int} (h : Progress s Value Fits σ (s.num w) (s.num w + 1) f)
    (hs : Spans next root s) (hw : w ∈ s.order) (hp : s.parent.get? w = some p) (hp0 : p ≠ 0)
    (hbp : f.bucket.get? p = some bp)
    (hfits : ∀ v r u, Waits s σ (s.num w) (s.num w + 1) p v → Found s σ (s.num w) r v u →
      Fits (σ v) v (if σ u < σ v then u else p)) :
    ∃ g, bp.foldlM (Forest.settle s.order.length p)
        { f with ancestor := f.ancestor.insert w p } = .ok g ∧
      Progress s Value Fits σ (s.num w) (s.num w) { g with bucket := g.bucket.insert p [] } := by
  have hwaits := h.waiting p bp hp0 hbp
  obtain ⟨g, hrun, hl, hbucket, hkept, hset⟩ := settle_all hs (h.linked.link hs hw hp hp0) bp
    (fun v hv => (hwaits v hv).mem) fun v hv r u => hfits v r u (hwaits v hv)
  refine ⟨g, hrun, h.valued, ⟨hl.semi, hl.low, hl.high⟩, ?_, ?_, ?_, ?_⟩
  · intro y hy
    rw [Table.get?_insert, hbucket]
    split
    · exact ⟨_, rfl⟩
    · exact h.bucket y hy
  · intro y b hy0 hb v hv
    rw [Table.get?_insert, hbucket] at hb
    split at hb
    · cases hb
      cases hv
    · rename_i hyp
      exact (h.waiting y b hy0 hb v hv).earlier hw hp hyp
  · intro v hv hlt
    have hvb : v ∉ bp := fun hvb => Nat.not_le_of_lt hlt (hwaits v hvb).treated
    exact (hkept v hvb).trans (h.blank v hv hlt)
  · intro v hv hle
    by_cases hvb : v ∈ bp
    · exact .inr (hset v hvb)
    rcases h.settled v hv hle with ⟨y, b, hy0, hb, hvb'⟩ | ⟨u, hu, hfit⟩
    · have hyp : y ≠ p := by
        rintro rfl
        cases hbp.symm.trans hb
        exact hvb hvb'
      refine .inl ⟨y, b, hy0, ?_, hvb'⟩
      rw [Table.get?_insert, if_neg hyp, hbucket]
      exact hb
    · exact .inr ⟨u, (hkept v hvb).trans hu, hfit⟩

/-- Treating the vertex before the threshold moves the threshold to it. -/
theorem process (h : Progress s Value Fits σ (s.num w + 1) (s.num w + 1) f) (hs : Spans next root s)
    (hw : w ∈ s.order) (hr : w ≠ root) (hps : ∀ v ∈ ps, v ∈ s.order)
    (hvalue : ∀ g x, Relaxed s σ w ps f g x →
      Value w x ∧ ∃ d, s.Above d w ∧ d ≠ w ∧ x = s.num d ∧ (d = 0 → Fits x w 0))
    (hfits : ∀ τ, Valued s Value τ (s.num w) → ∀ p v r u, s.parent.get? w = some p →
      Waits s τ (s.num w) (s.num w + 1) p v → Found s τ (s.num w) r v u →
      Fits (τ v) v (if τ u < τ v then u else p)) :
    ∃ g τ, f.process s ps w = .ok g ∧ Progress s Value Fits τ (s.num w) (s.num w) g := by
  obtain ⟨f₁, x, hrun₁, hrelaxed⟩ := h.linked.relax_all hs hw hps
  obtain ⟨hx, d, hdw, hne, hnd, hzero⟩ := hvalue f₁ x hrelaxed
  have hd := hs.above_mem hdw hw
  obtain ⟨p, hp, hpar, _, _⟩ := hs.parent w hw hr
  obtain ⟨bd, hbd⟩ : ∃ bd, f₁.bucket.get? d = some bd := hrelaxed.bucket ▸ h.bucket d hd
  have hsemi : f₁.semi.get? w = some (s.num d) := by
    rw [hrelaxed.linked.semi w hw, Function.update_self, hnd]
  have h₂ := h.deposit hs hw hrelaxed hx hdw hne hnd hzero hbd
  obtain ⟨bp, hbp⟩ := h₂.bucket p hp
  by_cases hp0 : p = 0
  · refine ⟨_, _, ?_, h₂.pass hw (hp0 ▸ hpar)⟩
    simp [Forest.process, hrun₁, look_ok hsemi, Numbering.getElem?_num hd, look_ok hbd, hpar, hp0,
      bind, Except.bind, pure, Except.pure]
  · obtain ⟨f₃, hrun₃, h₃⟩ :=
      h₂.empty hs hw hpar hp0 hbp fun v r u => hfits _ h₂.valued p v r u hpar
    refine ⟨_, _, ?_, h₃⟩
    simp only [Forest.process, hrun₁, look_ok hsemi, Numbering.getElem?_num hd, look_ok hbd, hpar,
      hp0, bind, Except.bind, pure, Except.pure, if_false]
    rw [look_ok hbp]
    simp only [hrun₃]

/-- At the end nobody waits. -/
theorem all_settled (h : Progress s Value Fits σ 1 1 f) (hs : Spans next root s) (hv : v ∈ s.order)
    (hr : v ≠ root) :
    ∃ u, f.idom.get? v = some u ∧ Fits (σ v) v u := by
  have hpos : s.num v ≠ 0 := fun he => hr (Numbering.num_inj hv (he.trans hs.num_root.symm))
  rcases h.settled v hv (by omega) with ⟨d, b, hd0, hb, hvb⟩ | hset
  · have hwaits := h.waiting d b hd0 hb v hvb
    obtain ⟨c, hc, hcv⟩ := hwaits.above.exists_child hwaits.ne
    have hlt := hwaits.child c hc hcv
    have hroot : c = root := Numbering.num_inj (hs.above_mem hcv hv) (by rw [hs.num_root]; omega)
    rw [hroot, hs.top] at hc
    cases hc
  · exact hset

end Progress

/-! ### Entries -/

/-- The state of the second pass: final entries before the threshold, and those of the first pass
from there on. -/
structure Resolving (root : Int) (s : Numbering) (Value : Int → Nat → Prop)
    (Fits : Nat → Int → Int → Prop) (Final : Int → Int → Prop) (σ : Int → Nat) (n : Nat)
    (f : Forest) : Prop where
  valued : Valued s Value σ 1
  semi : ∀ v ∈ s.order, f.semi.get? v = some (σ v)
  done : ∀ v ∈ s.order, v ≠ root → s.num v < n → ∃ u, f.idom.get? v = some u ∧ Final u v
  settled : ∀ v ∈ s.order, v ≠ root → n ≤ s.num v → ∃ u, f.idom.get? v = some u ∧ Fits (σ v) v u

/-- An entry `u` of `w` may stay, or it refers to an earlier vertex whose entry will do. -/
def Settles (root : Int) (s : Numbering) (Final : Int → Int → Prop) (d w u : Int) : Prop :=
  (u = 0 ∨ u = d) ∧ Final u w ∨
    u ≠ 0 ∧ u ≠ d ∧ u ∈ s.order ∧ u ≠ root ∧ s.num u < s.num w ∧ ∀ e, Final e u → Final e w

namespace Resolving

/-- A final entry for the vertex at the threshold. -/
theorem enter (idom : Table Int Int) (h : Resolving root s Value Fits Final σ (s.num w) f)
    (hfinal : Final u w) (hidom : ∀ x, idom.get? x = if x = w then some u else f.idom.get? x) :
    Resolving root s Value Fits Final σ (s.num w + 1) { f with idom } := by
  refine ⟨h.valued, h.semi, ?_, ?_⟩
  · intro v hv hr hlt
    rw [hidom]
    split
    · rename_i hvw
      exact ⟨u, rfl, hvw ▸ hfinal⟩
    · rename_i hvw
      have hne : s.num v ≠ s.num w := fun he => hvw (Numbering.num_inj hv he)
      exact h.done v hv hr (by omega)
  · intro v hv hr hle
    have hvw : v ≠ w := by
      rintro rfl
      omega
    rw [hidom, if_neg hvw]
    exact h.settled v hv hr (by omega)

theorem step (h : Resolving root s Value Fits Final σ (s.num w) f) (hs : Spans next root s)
    (hw : w ∈ s.order) (hr : w ≠ root)
    (hsettles : ∀ d ∈ s.order, ∀ u, Value w (s.num d) → Fits (s.num d) w u →
      Settles root s Final d w u) :
    ∃ g, f.resolve s w = .ok g ∧ Resolving root s Value Fits Final σ (s.num w + 1) g := by
  have hpos : s.num w ≠ 0 := fun he => hr (Numbering.num_inj hw (he.trans hs.num_root.symm))
  obtain ⟨hvalue, d, hdw, -, hnd⟩ := h.valued.high w hw (by omega)
  have hd := hs.above_mem hdw hw
  obtain ⟨u, hu, hfits⟩ := h.settled w hw hr (Nat.le_refl _)
  rw [hnd] at hvalue hfits
  have hsemi := h.semi w hw
  rw [hnd] at hsemi
  rcases hsettles d hd u hvalue hfits with ⟨hstay, hfinal⟩ | ⟨hu0, hud, hum, hur, hlt, hfinal⟩
  · refine ⟨f, ?_, h.enter f.idom hfinal fun x => ?_⟩
    · rcases hstay with rfl | rfl <;>
        simp [Forest.resolve, hu, look_ok hsemi, Numbering.getElem?_num hd, bind, Except.bind, pure,
          Except.pure]
    · split
      · rename_i hx
        rw [hx, hu]
      · rfl
  · obtain ⟨e, he, hefinal⟩ := h.done u hum hur hlt
    refine ⟨_, ?_, h.enter _ (hfinal e hefinal) (Table.get?_insert f.idom w · e)⟩
    simp [Forest.resolve, hu, hu0, look_ok hsemi, Numbering.getElem?_num hd, hud, look_ok he, bind,
      Except.bind, pure, Except.pure]

end Resolving

/-! ### The whole computation -/

section Whole

variable {succ : Table Int (List Int)} {vs : List Int}

theorem mem_numberedPredecessors :
    v ∈ numberedPredecessors s succ vs w ↔ v ∈ vs ∧ w ∈ nextIn succ v ∧ v ∈ s.order := by
  simp only [numberedPredecessors, List.mem_filter, Bool.and_eq_true, List.contains_eq_mem,
    decide_eq_true_eq, Numbering.number?_isSome]

/-- A vertex as the computation finds it. -/
structure Fresh (s : Numbering) (f : Forest) (v : Int) : Prop where
  semi : f.semi.get? v = some (s.num v)
  ancestor : f.ancestor.get? v = some 0
  label : f.label.get? v = some v
  idom : f.idom.get? v = some 0
  bucket : f.bucket.get? v = some []

/-- Listing `w` makes it fresh and leaves the others alone. -/
def Forest.enter (s : Numbering) (f : Forest) (w : Int) : Forest :=
  match s.number? w with
  | none => f
  | some n => {
      semi := f.semi.insert w n
      idom := f.idom.insert w 0
      ancestor := f.ancestor.insert w 0
      label := f.label.insert w w
      bucket := f.bucket.insert w [] }

theorem start_eq (s : Numbering) (vs : List Int) :
    Forest.start s vs = vs.foldl (Forest.enter s) {} := rfl

theorem fresh_enter (hv : v ∈ s.order) (h : v = w ∨ Fresh s f v) : Fresh s (f.enter s w) v := by
  unfold Forest.enter
  by_cases hvw : v = w
  · subst hvw
    rw [Numbering.number?_eq_some hv]
    constructor <;> simp
  · have hf := h.resolve_left hvw
    split
    · exact hf
    · exact ⟨by simpa [hvw] using hf.semi, by simpa [hvw] using hf.ancestor,
        by simpa [hvw] using hf.label, by simpa [hvw] using hf.idom, by simpa [hvw] using hf.bucket⟩

theorem fresh_start (hv : v ∈ s.order) (h : v ∈ vs) : Fresh s (Forest.start s vs) v := by
  rw [start_eq]
  suffices hs : ∀ f, v ∈ vs ∨ Fresh s f v →
      Fresh s (vs.foldl (Forest.enter s) f) v from hs _ (.inl h)
  clear h
  induction vs with
  | nil => exact fun f h => h.resolve_left (by simp)
  | cons w rest ih =>
    intro f h
    apply ih
    rcases h with h | h
    · rcases List.mem_cons.mp h with h | h
      · exact .inr (fresh_enter hv (.inl h))
      · exact .inl h
    · exact .inr (fresh_enter hv (.inr h))

theorem bucket_start {b : List Int} (h : (Forest.start s vs).bucket.get? d = some b) : b = [] := by
  rw [start_eq] at h
  suffices hs : ∀ f : Forest, (∀ b, f.bucket.get? d = some b → b = []) →
      ∀ b, (vs.foldl (Forest.enter s) f).bucket.get? d = some b → b = [] from
    hs {} (fun b hb => by cases hb) b h
  clear h
  induction vs with
  | nil => exact fun f hf => hf
  | cons w rest ih =>
    intro f hf
    apply ih
    intro b hb
    unfold Forest.enter at hb
    split at hb
    · exact hf b hb
    · rw [Table.get?_insert] at hb
      split at hb
      · cases hb
        rfl
      · exact hf b hb

/-- At first the tables hold numbers for values, and nothing is linked. -/
theorem linked_start (hvs : ∀ v ∈ s.order, v ∈ vs) :
    Linked s s.num s.order.length (Forest.start s vs) where
  semi v hv := (fresh_start hv (hvs v hv)).semi
  low v hv _ := ⟨(fresh_start hv (hvs v hv)).ancestor, (fresh_start hv (hvs v hv)).label⟩
  high _ hv hn := (Nat.not_le_of_lt (Numbering.num_lt_length hv) hn.1).elim

theorem progress_start (hvs : ∀ v ∈ s.order, v ∈ vs) :
    Progress s Value Fits s.num s.order.length s.order.length (Forest.start s vs) := by
  have hfresh := fun v hv => fresh_start hv (hvs v hv)
  have hlate : ∀ v ∈ s.order, ¬ s.order.length ≤ s.num v :=
    fun v hv => Nat.not_le_of_lt (Numbering.num_lt_length hv)
  refine ⟨⟨fun _ _ _ => rfl, fun v hv hn => (hlate v hv hn).elim⟩, linked_start hvs,
    fun d hd => ⟨[], (hfresh d hd).bucket⟩, ?_, fun v hv _ => (hfresh v hv).idom,
    fun v hv hn => (hlate v hv hn).elim⟩
  intro d b _ hb v hv
  rw [bucket_start hb] at hv
  cases hv

/-- What is entered in the end: the root and all that has no number lead to the root. -/
theorem get?_closing (idom : Table Int Int) :
    (vs.foldl (fun t v => if (s.number? v).isSome then t else t.insert v root) idom).get? v =
      if v ∈ vs ∧ v ∉ s.order then some root else idom.get? v := by
  induction vs generalizing idom with
  | nil => simp
  | cons w rest ih =>
    rw [List.foldl_cons, ih]
    simp only [Numbering.number?_isSome]
    by_cases hw : w ∈ s.order <;> by_cases hvw : v = w <;> simp_all

/-- Both passes succeed, and what has a number gets a final entry, if the values and entries mean
what they are to mean. -/
theorem immediateDominators_passes (Value : Int → Nat → Prop) (Fits : Nat → Int → Int → Prop)
    (Final : Int → Int → Prop) (hroot : root ∈ vs) (hclosed : ∀ v ∈ vs, ∀ w ∈ nextIn succ v, w ∈ vs)
    (hs : s = numberFrom succ root)
    (hvalue : ∀ w ∈ s.order, w ≠ root →
      ∀ σ ps f g x, (∀ v, v ∈ ps ↔ v ∈ s.order ∧ w ∈ nextIn succ v) →
      Valued s Value σ (s.num w + 1) → Relaxed s σ w ps f g x →
      Value w x ∧ ∃ d, s.Above d w ∧ d ≠ w ∧ x = s.num d ∧ (d = 0 → Fits x w 0))
    (hfits : ∀ w ∈ s.order, ∀ τ, Valued s Value τ (s.num w) → ∀ p v r u, s.parent.get? w = some p →
      Waits s τ (s.num w) (s.num w + 1) p v → Found s τ (s.num w) r v u →
      Fits (τ v) v (if τ u < τ v then u else p))
    (hsettles : ∀ w ∈ s.order, w ≠ root → ∀ d ∈ s.order, ∀ u, Value w (s.num d) →
      Fits (s.num d) w u → Settles root s Final d w u) :
    ∃ f : Forest, immediateDominators vs succ root = .ok (vs.foldl
        (fun t v => if (s.number? v).isSome then t else t.insert v root)
        (f.idom.insert root root)) ∧
      ∀ v ∈ s.order, v ≠ root → ∃ u, f.idom.get? v = some u ∧ Final u v := by
  subst hs
  have hs := numberFrom_spans succ root
  set s := numberFrom succ root
  have hvs : ∀ v ∈ s.order, v ∈ vs := fun v hv =>
    (hs.reaches_iff.mpr hv).invariant hroot fun x hx y hy => hclosed x hx y hy
  have hpreds : ∀ w v, v ∈ numberedPredecessors s succ vs w ↔ v ∈ s.order ∧ w ∈ nextIn succ v := by
    intro w v
    rw [mem_numberedPredecessors]
    exact ⟨fun h => ⟨h.2.2, h.2.1⟩, fun h => ⟨hvs v h.1, h.2, h.1⟩⟩
  have hpos := List.length_pos_of_mem hs.root_mem
  have hlen : s.order.length - 1 + 1 = s.order.length := by omega
  have hstep : ∀ w ∈ s.order, w ≠ root →
      ∀ f, (∃ σ, Progress s Value Fits σ (s.num w + 1) (s.num w + 1) f) →
      ∃ g, f.process s (numberedPredecessors s succ vs w) w = .ok g ∧
        ∃ τ, Progress s Value Fits τ (s.num w) (s.num w) g := by
    rintro w hw hr f ⟨σ, h⟩
    obtain ⟨g, τ, hrun, hnext⟩ := h.process hs hw hr (fun v hv => ((hpreds w v).mp hv).1)
      (hvalue w hw hr σ _ f · · (hpreds w) h.valued) (hfits w hw)
    exact ⟨g, hrun, τ, hnext⟩
  obtain ⟨f₁, hrun₁, σ, hprog⟩ :=
    hs.foldlM_down (P := fun n f => ∃ σ, Progress s Value Fits σ n n f)
    (n := s.order.length - 1) hstep (by omega) ⟨s.num, hlen.symm ▸ progress_start hvs⟩
  rw [hlen, List.take_length] at hrun₁
  have hsecond : Resolving root s Value Fits Final σ 1 f₁ := by
    refine ⟨hprog.valued, hprog.linked.semi, ?_, fun v hv hr _ => hprog.all_settled hs hv hr⟩
    intro u hu hr hlt
    exact (hr (Numbering.num_inj hu (by rw [hs.num_root]; omega))).elim
  obtain ⟨f₂, hrun₂, hdone⟩ := hs.foldlM_up
    (fun w hw hr _ h => h.step hs hw hr (hsettles w hw hr)) Nat.one_pos hpos hsecond
  refine ⟨f₂, ?_, fun v hv hr => hdone.done v hv hr (Numbering.num_lt_length hv)⟩
  rw [List.drop_one] at hrun₂
  simp only [immediateDominators]
  rw [hrun₁]
  simp only [bind, Except.bind]
  rw [hrun₂]
  rfl

end Whole

end CrossCall.Flow
