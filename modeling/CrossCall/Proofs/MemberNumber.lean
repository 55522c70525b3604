import CrossCall.Calls.Package
import CrossCall.Proofs.Table

/-! The numbers in the document of a package. They are given one after the other, first to the
members of the package and then to those outside, so no number stands for two members. -/
namespace CrossCall.Calls.Package

/-! ### Numbering that succeeds -/

variable {α β γ : Type} {x : Numbered α} {k : α → Numbered β} {s s' s'' : Numbering} {a a' : α}
  {b b' : β}

/-- From the numbers `s` the computation comes to a result, with the numbers `s'` given then. -/
def Yields (x : Numbered α) (s : Numbering) (a : α) (s' : Numbering) : Prop :=
  x.run.run s = (.ok a, s')

theorem yields_of_run (h : x.run.run s = (.ok a, s'')) : Yields x s a' s' ↔ a' = a ∧ s' = s'' := by
  unfold Yields
  rw [h]
  constructor
  · rintro ⟨⟩
    exact ⟨rfl, rfl⟩
  · rintro ⟨rfl, rfl⟩
    rfl

theorem yields_pure : Yields (pure a) s a' s' ↔ a' = a ∧ s' = s := yields_of_run rfl

theorem yields_number {u : String} {n : Nat} :
    Yields (number u) s n s' ↔ n = s.next ∧ s' = ⟨s.next + 1, s.ids.insert u s.next⟩ :=
  yields_of_run rfl

theorem yields_id? {u : String} {n : Option Nat} :
    Yields (id? u) s n s' ↔ n = s.ids.get? u ∧ s' = s :=
  yields_of_run rfl

theorem yields_lift {x : Except Fault α} : Yields (liftM x) s a s' ↔ x = .ok a ∧ s' = s := by
  cases x with
  | error e =>
    constructor
    · rintro ⟨⟩
    · rintro ⟨⟨⟩, _⟩
  | ok a' => exact yields_pure.trans (and_congr_left fun _ => by rw [Except.ok.injEq, eq_comm])

theorem not_yields_throw {e : Fault} : ¬ Yields (throw e) s a s' := by
  rintro ⟨⟩

theorem yields_bind :
    Yields (x >>= k) s b s'' ↔ ∃ a s', Yields x s a s' ∧ Yields (k a) s' b s'' := by
  unfold Yields
  rw [ExceptT.run_bind, StateT.run_bind]
  rcases x.run.run s with ⟨e | a, s₁⟩
  · constructor
    · rintro ⟨⟩
    · rintro ⟨_, _, ⟨⟩, _⟩
  · constructor
    · exact fun h => ⟨a, s₁, rfl, h⟩
    · rintro ⟨_, _, ⟨⟩, h⟩
      exact h

theorem yields_foldlM {I : β → Numbering → Prop} {xs : List γ} {f : β → γ → Numbered β}
    (hstep : ∀ c ∈ xs, ∀ b s b' s', I b s → Yields (f b c) s b' s' → I b' s') (hb : I b s)
    (h : Yields (xs.foldlM f b) s b' s') : I b' s' := by
  induction xs generalizing b s with
  | nil =>
    obtain ⟨rfl, rfl⟩ := yields_pure.mp h
    exact hb
  | cons c rest ih =>
    rw [List.foldlM_cons, yields_bind] at h
    obtain ⟨b₁, s₁, h₁, h⟩ := h
    exact ih (fun c hc => hstep c (List.mem_cons_of_mem _ hc))
      (hstep c List.mem_cons_self b s b₁ s₁ hb h₁) h

/-- What gives no number for one item gives none for a list of them. -/
theorem yields_mapM {xs : List γ} {f : γ → Numbered β} {bs : List β}
    (hstep : ∀ c s b s', Yields (f c) s b s' → s' = s) (h : Yields (xs.mapM f) s bs s') :
    s' = s := by
  induction xs generalizing s bs with
  | nil =>
    rw [List.mapM_nil] at h
    exact (yields_pure.mp h).2
  | cons c rest ih =>
    simp only [List.mapM_cons, yields_bind, yields_pure] at h
    obtain ⟨b, s₁, hb, bs', s₂, hbs, -, rfl⟩ := h
    rw [ih hbs, hstep c s b s₁ hb]

/-! ### Members of the package -/

theorem uri_start {functions : List String} {module name u : String}
    (h : uri functions module name = .ok u) :
    ∃ rest, u = "/" ++ rest := by
  unfold uri at h
  dsimp only at h
  split at h
  · cases h
    exact ⟨_, by simp only [String.append_assoc]; rfl⟩
  · split at h
    · cases h
      exact ⟨_, by simp only [String.append_assoc]; rfl⟩
    · cases h

/-- The members have numbers before `n`, and addresses within the package. -/
def NumberedBefore (n : Nat) (t : Table Nat Namespace) : Prop :=
  ∀ e ∈ t.entries, e.1 < n ∧ ∃ rest, e.2.uri = "/" ++ rest

theorem NumberedBefore.mono {m n : Nat} {t : Table Nat Namespace} (h : NumberedBefore m t)
    (hmn : m ≤ n) :
    NumberedBefore n t := fun e he => ⟨Nat.lt_of_lt_of_le (h e he).1 hmn, (h e he).2⟩

/-- An entry with a new number, or another entry with a known one. -/
theorem NumberedBefore.insert {n i : Nat} {t : Table Nat Namespace} {e : Namespace} {rest : String}
    (h : NumberedBefore n t) (hi : i < n) (he : e.uri = "/" ++ rest) :
    NumberedBefore n (t.insert i e) := by
  intro e' he'
  rcases Table.mem_entries_insert he' with rfl | he'
  · exact ⟨hi, rest, he⟩
  · exact h e' he'

def InsideBefore (n : Nat) (mods : Table String InsideModule) : Prop :=
  ∀ m ∈ mods.values, NumberedBefore n m.namespaces

theorem InsideBefore.insert {n : Nat} {mods : Table String InsideModule} {key : String}
    {m : InsideModule} (h : InsideBefore n mods) (hm : NumberedBefore n m.namespaces) :
    InsideBefore n (mods.insert key m) := by
  intro m' hm'
  rcases Table.mem_values_insert hm' with rfl | hm'
  · exact hm
  · exact h m' hm'

theorem addParents_before {f : Facts} {mods mods' : Table String InsideModule}
    (h : Yields (addParents f mods) s mods' s') (hmods : InsideBefore s.next mods) :
    InsideBefore s'.next mods' := by
  refine yields_foldlM (I := fun mods s => InsideBefore s.next mods) ?_ hmods h
  rintro ⟨name, c⟩ - mods s mods' s' hmods h
  simp only [yields_bind, yields_lift, yields_id?, and_assoc, exists_and_left, exists_eq_left] at h
  obtain ⟨u, -, key, -, h⟩ := h
  generalize s.ids.get? u = id at h
  -- Only a class whose module and number are known is given its parents; all else is a fault.
  rcases hm : mods.get? key with _ | m
  · rw [hm] at h
    exact (not_yields_throw h).elim
  rcases id with _ | id
  · rw [hm] at h
    exact (not_yields_throw h).elim
  rw [hm] at h
  dsimp only at h
  rcases he : m.namespaces.get? id with _ | entry
  · rw [he] at h
    exact (not_yields_throw h).elim
  rw [he] at h
  simp only [yields_bind, yields_pure] at h
  obtain ⟨parents, s₁, hparents, rfl, rfl⟩ := h
  have hs : s' = s := by
    refine yields_mapM (fun p s b s' hp => ?_) hparents
    cases hpc : Table.get? f.classes p with
    | none =>
      rw [hpc] at hp
      exact (yields_pure.mp hp).2
    | some pc =>
      rw [hpc] at hp
      exact (yields_lift.mp hp).2
  rw [hs]
  have hmember := hmods m (List.mem_map_of_mem (Table.mem_entries_of_get? hm))
  obtain ⟨hlt, rest, hrest⟩ := hmember _ (Table.mem_entries_of_get? he)
  exact hmods.insert (hmember.insert (e := { entry with parents := some parents }) hlt hrest)

theorem insideModules_before {f : Facts} {mods : Table String InsideModule}
    (h : Yields (insideModules f) s mods s') :
    InsideBefore s'.next mods := by
  unfold insideModules at h
  rw [yields_bind] at h
  obtain ⟨mods₁, s₁, hmods, h⟩ := h
  refine addParents_before h
    (yields_foldlM (I := fun mods s => InsideBefore s.next mods) ?_ ?_ hmods)
  · rintro ⟨module, info⟩ - mods s mods' s' hbefore h
    simp only [yields_bind, yields_lift, yields_pure] at h
    obtain ⟨key, _, ⟨-, rfl⟩, entries, s₁, hentries, rfl, rfl⟩ := h
    -- While the members of one module are numbered, those of the modules before keep their numbers.
    obtain ⟨hbefore, hentries⟩ := yields_foldlM
      (I := fun entries s => InsideBefore s.next mods ∧ NumberedBefore s.next entries) (by
        rintro m - entries s entries' s' ⟨hmods, hentries⟩ h
        simp only [yields_bind, yields_lift, yields_number, yields_pure] at h
        obtain ⟨u, _, ⟨hu, rfl⟩, n, _, ⟨rfl, rfl⟩, rfl, rfl⟩ := h
        obtain ⟨rest, hrest⟩ := uri_start hu
        exact ⟨fun m hm => (hmods m hm).mono (Nat.le_succ _),
          (hentries.mono (Nat.le_succ _)).insert (Nat.lt_succ_self _) hrest⟩)
      ⟨hbefore, by simp [NumberedBefore]⟩ hentries
    exact hbefore.insert hentries
  · simp [InsideBefore, Table.values]

/-! ### Members outside -/

theorem outsideUri_start (module name : String) :
    ∃ rest, outsideUri module name = "//" ++ rest :=
  ⟨_, by simp only [outsideUri, String.append_assoc]; rfl⟩

/-- The members have numbers from `n` on and before the next one, and the number tells the address,
which is one outside. -/
def NumberedFrom (n next : Nat) (g : Nat → String) (t : Table String String) : Prop :=
  ∀ e ∈ t.entries, ∃ i, n ≤ i ∧ i < next ∧ e = (toString i, g i) ∧ ∃ rest, g i = "//" ++ rest

theorem NumberedFrom.extend {n next : Nat} {g : Nat → String} {t : Table String String}
    (h : NumberedFrom n next g t) (u : String) :
    NumberedFrom n (next + 1) (Function.update g next u) t := by
  intro e he
  obtain ⟨i, hn, hi, rfl, hrest⟩ := h e he
  have hne : i ≠ next := Nat.ne_of_lt hi
  exact ⟨i, hn, by omega, by rw [Function.update_of_ne hne], by rwa [Function.update_of_ne hne]⟩

theorem NumberedFrom.insert {n next : Nat} {g : Nat → String} {t : Table String String}
    {u rest : String} (h : NumberedFrom n next g t) (hn : n ≤ next) (hu : u = "//" ++ rest) :
    NumberedFrom n (next + 1) (Function.update g next u) (t.insert (toString next) u) := by
  intro e he
  rcases Table.mem_entries_insert he with rfl | he
  · exact ⟨next, hn, Nat.lt_succ_self _, by rw [Function.update_self], rest, by
      rwa [Function.update_self]⟩
  · exact h.extend u e he

def OutsideFrom (n next : Nat) (g : Nat → String) (mods : Table String OutsideModule) : Prop :=
  ∀ m ∈ mods.values, NumberedFrom n next g m.namespaces

theorem OutsideFrom.insert {n next : Nat} {g : Nat → String} {mods : Table String OutsideModule}
    {key : String} {m : OutsideModule} (h : OutsideFrom n next g mods)
    (hm : NumberedFrom n next g m.namespaces) :
    OutsideFrom n next g (mods.insert key m) := by
  intro m' hm'
  rcases Table.mem_values_insert hm' with rfl | hm'
  · exact hm
  · exact h m' hm'

theorem outsideModules_from {f : Facts} {mods : Table String OutsideModule}
    (h : Yields (outsideModules f) s mods s') : ∃ g, OutsideFrom s.next s'.next g mods := by
  refine (yields_foldlM (I :=
    fun mods s' => s.next ≤ s'.next ∧ ∃ g, OutsideFrom s.next s'.next g mods) ?_ ?_ h).2
  · rintro ⟨module, info⟩ - mods s₀ mods' s' ⟨hle, g, hmods⟩ h
    simp only [yields_bind, yields_pure] at h
    obtain ⟨entries, s₁, hentries, rfl, rfl⟩ := h
    obtain ⟨hle, g, hmods, hentries⟩ := yields_foldlM
      (I := fun entries s' => s.next ≤ s'.next ∧ ∃ g, OutsideFrom s.next s'.next g mods ∧
        NumberedFrom s.next s'.next g entries) (by
        rintro m - entries s₀ entries' s' ⟨hle, g, hmods, hentries⟩ h
        split at h
        · obtain ⟨rfl, rfl⟩ := yields_pure.mp h
          exact ⟨hle, g, hmods, hentries⟩
        · simp only [yields_bind, yields_number, yields_pure] at h
          obtain ⟨n, _, ⟨rfl, rfl⟩, rfl, rfl⟩ := h
          obtain ⟨rest, hrest⟩ := outsideUri_start module m.name
          exact ⟨Nat.le_succ_of_le hle, _, fun m' hm' => (hmods m' hm').extend _,
            hentries.insert hle hrest⟩)
      ⟨hle, g, hmods, by simp [NumberedFrom]⟩ hentries
    exact ⟨hle, g, hmods.insert hentries⟩
  · exact ⟨Nat.le_refl _, fun _ => "", by simp [OutsideFrom, Table.values]⟩

/-- What a document can list outside, with its modules. A module is no member of itself. -/
def outsideNames (f : Facts) : List (String × String) :=
  f.outside.entries.flatMap fun (module, info) =>
    (info.members.values.filter (·.name != module)).map fun m => (module, m.name)

/-- Every address is the one of something outside. -/
def Addresses (f : Facts) (t : Table String String) : Prop :=
  ∀ e ∈ t.entries, ∃ x ∈ outsideNames f, e.2 = outsideUri x.1 x.2

theorem outsideModules_addresses {f : Facts} {mods : Table String OutsideModule}
    (h : Yields (outsideModules f) s mods s') : ∀ m ∈ mods.values, Addresses f m.namespaces := by
  refine yields_foldlM (I := fun mods _ => ∀ m ∈ mods.values, Addresses f m.namespaces) ?_ ?_ h
  · rintro ⟨module, info⟩ hmodule mods s mods' s' hmods h
    simp only [yields_bind, yields_pure] at h
    obtain ⟨entries, s₁, hentries, rfl, rfl⟩ := h
    have hadded : Addresses f entries := by
      refine yields_foldlM (I := fun entries _ => Addresses f entries) ?_ ?_ hentries
      · intro m hm entries s entries' s' hentries h
        split at h
        · obtain ⟨rfl, rfl⟩ := yields_pure.mp h
          exact hentries
        · rename_i hne
          simp only [yields_bind, yields_pure] at h
          obtain ⟨n, _, -, rfl, rfl⟩ := h
          intro e he
          rcases Table.mem_entries_insert he with rfl | he
          · refine ⟨(module, m.name), List.mem_flatMap.mpr ⟨_, hmodule, ?_⟩, rfl⟩
            exact List.mem_map_of_mem (List.mem_filter.mpr ⟨hm, by simpa using hne⟩)
          · exact hentries e he
      · simp [Addresses]
    intro m hm
    rcases Table.mem_values_insert hm with rfl | hm
    · exact hadded
    · exact hmods m hm
  · simp [Table.values]

/-! ### The document -/

/-- A number parts the members of the package from those outside, whose addresses can be told by
their numbers. -/
def Parted (p : Package) (n : Nat) (next : Nat) (g : Nat → String) : Prop :=
  InsideBefore n p.inside ∧ OutsideFrom n next g p.outside

theorem document_parted {fs : Files} {package : Option String} {label : Label} {f : Facts}
    {p : Package} (h : Yields (document fs package label f) s p s') :
    ∃ n next g, Parted p n next g := by
  simp only [document, yields_bind, yields_lift, yields_pure] at h
  obtain ⟨_, _, ⟨-, rfl⟩, _, s₁, hinside, _, s₂, houtside, _, _, -, _, _, -, rfl, rfl⟩ := h
  obtain ⟨g, hg⟩ := outsideModules_from houtside
  exact ⟨s₁.next, s₂.next, g, insideModules_before hinside, hg⟩

theorem document_addresses {fs : Files} {package : Option String} {label : Label} {f : Facts}
    {p : Package} (h : Yields (document fs package label f) s p s') :
    ∀ m ∈ p.outside.values, Addresses f m.namespaces := by
  simp only [document, yields_bind, yields_lift, yields_pure] at h
  obtain ⟨_, _, -, _, _, -, _, _, houtside, _, _, -, _, _, -, rfl, rfl⟩ := h
  exact outsideModules_addresses houtside

end CrossCall.Calls.Package
