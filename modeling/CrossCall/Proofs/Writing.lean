import CrossCall.Desk
import CrossCall.Proofs.Table

/-! What a job leaves behind. A job either gives a value or stops, and both leave a desk. A job that
only writes files for which there is room never stops for the sake of a file, since writing one of
them takes the room from none. -/
namespace CrossCall

/-! ### Outcomes of jobs -/

namespace Job

variable {α β : Type} {job : Job α} {next : α → Job β} {d d₁ d₂ : Desk} {x : α} {e : Stop}
  {r : Except Stop β}

/-- A job ends with a value or a stop, and leaves a desk. -/
def Ends (job : Job α) (d : Desk) (r : Except Stop α) (d' : Desk) : Prop := job.run.run d = (r, d')

theorem ends_pure (x : α) (d : Desk) : Ends (pure x) d (.ok x) d := rfl

theorem ends_throw (e : Stop) (d : Desk) : Ends (throw e : Job α) d (.error e) d := rfl

theorem ends_get (d : Desk) : Ends (get : Job Desk) d (.ok d) d := rfl

theorem run_bind : (job >>= next).run.run d = match job.run.run d with
    | (.ok x, d') => (next x).run.run d'
    | (.error e, d') => (.error e, d') := by
  simp only [ExceptT.run_bind, StateT.run_bind]
  rcases job.run.run d with ⟨_ | _, _⟩ <;> rfl

namespace Ends

theorem bind (h : Ends job d (.ok x) d₁) (hnext : Ends (next x) d₁ r d₂) :
    Ends (job >>= next) d r d₂ := by
  unfold Ends at h hnext ⊢
  rw [run_bind, h]
  exact hnext

/-- What follows a stop is not done. -/
theorem bind_stop (h : Ends job d (.error e) d₁) : Ends (job >>= next) d (.error e) d₁ := by
  unfold Ends at h ⊢
  rw [run_bind, h]

theorem bind_exists {P : Desk → Prop} (h : Ends job d (.ok x) d₁)
    (hnext : ∃ d', Ends (next x) d₁ r d' ∧ P d') :
    ∃ d', Ends (job >>= next) d r d' ∧ P d' := by
  obtain ⟨d', hends, hd'⟩ := hnext
  exact ⟨d', h.bind hends, hd'⟩

theorem attempt {r : Except Stop α} (h : Ends job d r d₁) : Ends (attempt job) d (.ok r) d₁ := by
  have hrun : (Job.attempt job).run.run d = (.ok (job.run.run d).1, (job.run.run d).2) := rfl
  unfold Ends at h ⊢
  rw [hrun, h]

end Ends

end Job

/-! ### Changes to files -/

namespace Files

variable {fs fs' fs'' made : Files} {ps qs : List String} {p q text : String}

theorem isDirectory_iff : fs.isDirectory p = true ↔
    fs.resolve p = "/" ∨ isBelow (fs.resolve p) fs.cwd = true ∨
      (∃ f ∈ fs.extraDirectories, isBelow (fs.resolve p) f = true) ∨
      ∃ k ∈ fs.contents.keys, k ≠ fs.resolve p ∧ isBelow (fs.resolve p) k = true := by
  simp [isDirectory, or_assoc]

/-- Folders are as before, and no file but the given ones has another content. -/
structure ChangedAt (ps : List String) (fs fs' : Files) : Prop where
  cwd : fs'.cwd = fs.cwd
  folders : fs'.extraDirectories = fs.extraDirectories
  kept : ∀ k ∈ fs.contents.keys, k ∈ fs'.contents.keys
  fresh : ∀ k ∈ fs'.contents.keys, k ∈ fs.contents.keys ∨ ∃ p ∈ ps, fs.resolve p = k
  same : ∀ k, (∀ p ∈ ps, fs.resolve p ≠ k) → fs'.contents.get? k = fs.contents.get? k

namespace ChangedAt

theorem refl (ps : List String) (fs : Files) : ChangedAt ps fs fs where
  cwd := rfl
  folders := rfl
  kept _ h := h
  fresh _ h := .inl h
  same _ _ := rfl

theorem resolve_eq (h : ChangedAt ps fs fs') (p : String) : fs'.resolve p = fs.resolve p := by
  simp only [resolve, h.cwd]

theorem trans (h : ChangedAt ps fs fs') (h' : ChangedAt ps fs' fs'') : ChangedAt ps fs fs'' where
  cwd := h'.cwd.trans h.cwd
  folders := h'.folders.trans h.folders
  kept k hk := h'.kept k (h.kept k hk)
  fresh k hk := by
    rcases h'.fresh k hk with hk | ⟨p, hp, hpk⟩
    · exact h.fresh k hk
    · exact .inr ⟨p, hp, h.resolve_eq p ▸ hpk⟩
  same k hk := by
    have hk' : ∀ p ∈ ps, fs'.resolve p ≠ k := fun p hp => h.resolve_eq p ▸ hk p hp
    exact (h'.same k hk').trans (h.same k hk)

theorem mono (h : ChangedAt ps fs fs') (hsub : ps ⊆ qs) : ChangedAt qs fs fs' where
  cwd := h.cwd
  folders := h.folders
  kept := h.kept
  fresh k hk := (h.fresh k hk).imp_right fun ⟨p, hp, hpk⟩ => ⟨p, hsub hp, hpk⟩
  same k hk := h.same k fun p hp => hk p (hsub hp)

theorem write (hp : p ∈ ps) (fs : Files) (text : String) : ChangedAt ps fs (fs.write p text) where
  cwd := rfl
  folders := rfl
  kept k hk := Table.mem_keys_insert.mpr (.inr hk)
  fresh k hk := by
    rcases Table.mem_keys_insert.mp hk with rfl | hk
    · exact .inr ⟨p, hp, rfl⟩
    · exact .inl hk
  same k hk := by
    have hne : k ≠ fs.resolve p := (hk p hp).symm
    simp [Files.write, hne]

/-- A folder does not vanish. -/
theorem isDirectory_mono (h : ChangedAt ps fs fs') (hp : fs.isDirectory p = true) :
    fs'.isDirectory p = true := by
  rw [isDirectory_iff] at hp ⊢
  rw [h.resolve_eq, h.cwd, h.folders]
  refine hp.imp_right (Or.imp_right (Or.imp_right ?_))
  rintro ⟨k, hk, hne, hbelow⟩
  exact ⟨k, h.kept k hk, hne, hbelow⟩

/-- A new folder holds a file that was written. -/
theorem isDirectory_new (h : ChangedAt ps fs fs') (hp : fs'.isDirectory p = true) :
    fs.isDirectory p = true ∨
      ∃ q ∈ ps, fs.resolve q ≠ fs.resolve p ∧ isBelow (fs.resolve p) (fs.resolve q) = true := by
  rw [isDirectory_iff] at hp ⊢
  rw [h.resolve_eq, h.cwd, h.folders] at hp
  rcases hp with hroot | hcwd | hfolder | ⟨k, hk, hne, hbelow⟩
  · exact .inl (.inl hroot)
  · exact .inl (.inr (.inl hcwd))
  · exact .inl (.inr (.inr (.inl hfolder)))
  · rcases h.fresh k hk with hk | ⟨q, hq, rfl⟩
    · exact .inl (.inr (.inr (.inr ⟨k, hk, hne, hbelow⟩)))
    · exact .inr ⟨q, hq, hne, hbelow⟩

end ChangedAt

/-! ### Room for files -/

/-- The given files can be written, in any order and any number of times. -/
structure HasRoom (fs : Files) (ps : List String) : Prop where
  named : ∀ p ∈ ps, p.isEmpty = false
  housed : ∀ p ∈ ps, fs.isDirectory (Path.dirName (fs.resolve p)) = true
  free : ∀ p ∈ ps, fs.isDirectory p = false
  /-- None of the files is to be in another. -/
  apart : ∀ p ∈ ps, ∀ q ∈ ps, fs.resolve q ≠ fs.resolve p →
    isBelow (fs.resolve p) (fs.resolve q) = false

namespace HasRoom

theorem store_eq (h : fs.HasRoom ps) (hp : p ∈ ps) (text : String) :
    fs.store p text = .ok (fs.write p text) := by
  simp [store, h.named p hp, h.free p hp, h.housed p hp]

theorem mono (h : fs.HasRoom ps) (hsub : qs ⊆ ps) : fs.HasRoom qs where
  named p hp := h.named p (hsub hp)
  housed p hp := h.housed p (hsub hp)
  free p hp := h.free p (hsub hp)
  apart p hp q hq := h.apart p (hsub hp) q (hsub hq)

/-- Writing one of the files leaves room for all of them. -/
theorem changed (h : fs.HasRoom ps) (hc : ChangedAt ps fs fs') : fs'.HasRoom ps where
  named := h.named
  housed p hp := by
    rw [hc.resolve_eq]
    exact hc.isDirectory_mono (h.housed p hp)
  free p hp := by
    by_contra hdir
    rcases hc.isDirectory_new (by simpa using hdir) with hdir | ⟨q, hq, hne, hbelow⟩
    · rw [h.free p hp] at hdir
      cases hdir
    · rw [h.apart p hp q hq hne] at hbelow
      cases hbelow
  apart p hp q hq := by
    rw [hc.resolve_eq, hc.resolve_eq]
    exact h.apart p hp q hq

end HasRoom

/-! ### New folders -/

theorem isBelow_self (k : String) : isBelow k k = true := by simp [isBelow]

theorem mem_keys_of_isFile (h : fs.isFile p = true) : fs.resolve p ∈ fs.contents.keys := by
  obtain ⟨bytes, hbytes⟩ := Option.isSome_iff_exists.mp h
  exact List.mem_map_of_mem (Table.mem_entries_of_get? hbytes)

/-- A folder is there already, or it is noted where no file stands in its way. -/
theorem makeDirectories_eq_ok : fs.makeDirectories p = .ok made ↔ p.isEmpty = false ∧
    (fs.isDirectory p = true ∧ made = fs ∨
      fs.isDirectory p = false ∧ (∀ k ∈ fs.contents.keys, isBelow k (fs.resolve p) = false) ∧
        made = { fs with extraDirectories := insertName fs.extraDirectories (fs.resolve p) }) := by
  constructor
  · intro h
    simp only [makeDirectories] at h
    split at h
    · cases h
    · rename_i hempty
      refine ⟨by simpa using hempty, ?_⟩
      split at h
      · rename_i hdir
        cases h
        exact .inl ⟨hdir, rfl⟩
      · rename_i hdir
        split at h
        · cases h
        · split at h
          · cases h
          · rename_i hway
            cases h
            exact .inr ⟨by simpa using hdir, by simpa using hway, rfl⟩
  · rintro ⟨hempty, ⟨hdir, rfl⟩ | ⟨hdir, hway, rfl⟩⟩
    · simp [makeDirectories, hempty, hdir]
    · have hany : (fs.contents.keys.any fun f => isBelow f (fs.resolve p)) = false := by
        simpa using hway
      have hfile : fs.isFile p = false := by
        by_contra hp
        have hself := hway _ (mem_keys_of_isFile (by simpa using hp))
        rw [isBelow_self] at hself
        cases hself
      simp only [makeDirectories, hempty, hdir, hfile, hany, Bool.false_eq_true, if_false]

theorem resolve_made (h : fs.makeDirectories p = .ok made) (q : String) :
    made.resolve q = fs.resolve q := by
  obtain ⟨-, ⟨-, rfl⟩ | ⟨-, -, rfl⟩⟩ := makeDirectories_eq_ok.mp h <;> rfl

theorem contents_made (h : fs.makeDirectories p = .ok made) : made.contents = fs.contents := by
  obtain ⟨-, ⟨-, rfl⟩ | ⟨-, -, rfl⟩⟩ := makeDirectories_eq_ok.mp h <;> rfl

theorem isDirectory_made (h : fs.makeDirectories p = .ok made) (hq : fs.isDirectory q = true) :
    made.isDirectory q = true := by
  obtain ⟨-, ⟨-, rfl⟩ | ⟨-, -, rfl⟩⟩ := makeDirectories_eq_ok.mp h
  · exact hq
  · rw [isDirectory_iff] at hq ⊢
    refine hq.imp_right (Or.imp_right (Or.imp_left ?_))
    rintro ⟨f, hf, hbelow⟩
    exact ⟨f, mem_insertName.mpr (.inl hf), hbelow⟩

/-- The room after a folder was made was there before, but for folders of the files themselves. -/
theorem HasRoom.before (h : made.HasRoom ps) (hmade : fs.makeDirectories p = .ok made)
    (hhoused : ∀ q ∈ ps, fs.isDirectory (Path.dirName (fs.resolve q)) = true) : fs.HasRoom ps where
  named := h.named
  housed := hhoused
  free q hq := by
    by_contra hdir
    have hdir' := isDirectory_made hmade (by simpa using hdir)
    rw [h.free q hq] at hdir'
    cases hdir'
  apart q hq q' hq' := by
    rw [← resolve_made hmade, ← resolve_made hmade]
    exact h.apart q hq q' hq'

/-- Neither of two paths leads through the other. -/
def Apart (a b : String) : Prop := isBelow a b = false ∧ isBelow b a = false

/-- A folder can still be made after files have been written elsewhere. -/
theorem ChangedAt.makeDirectories (hc : ChangedAt ps fs fs') (h : fs.makeDirectories p = .ok made)
    (hapart : ∀ q ∈ ps, Apart (fs.resolve q) (fs.resolve p)) :
    ∃ made', fs'.makeDirectories p = .ok made' ∧ ChangedAt ps made made' := by
  obtain ⟨hempty, ⟨hdir, rfl⟩ | ⟨hdir, hway, rfl⟩⟩ := makeDirectories_eq_ok.mp h
  · exact ⟨fs', makeDirectories_eq_ok.mpr ⟨hempty, .inl ⟨hc.isDirectory_mono hdir, rfl⟩⟩, hc⟩
  · have hdir' : fs'.isDirectory p = false := by
      by_contra hp
      rcases hc.isDirectory_new (by simpa using hp) with hp | ⟨q, hq, -, hbelow⟩
      · rw [hdir] at hp
        cases hp
      · rw [(hapart q hq).2] at hbelow
        cases hbelow
    have hway' : ∀ k ∈ fs'.contents.keys, isBelow k (fs'.resolve p) = false := by
      intro k hk
      rw [hc.resolve_eq]
      rcases hc.fresh k hk with hk | ⟨q, hq, rfl⟩
      · exact hway k hk
      · exact (hapart q hq).1
    refine ⟨_, makeDirectories_eq_ok.mpr ⟨hempty, .inr ⟨hdir', hway', rfl⟩⟩, ?_⟩
    refine ⟨hc.cwd, ?_, hc.kept, hc.fresh, hc.same⟩
    simp only [hc.folders, hc.resolve_eq]

end Files

/-! ### Jobs on files -/

namespace Job

variable {d : Desk} {made : Files} {ps : List String} {p : String}

theorem ends_say (line : String) (d : Desk) :
    Ends (say line) d (.ok ()) { d with printed := d.printed ++ [line] } := rfl

theorem ends_sayAll (lines : List String) (d : Desk) :
    Ends (sayAll lines) d (.ok ()) { d with printed := d.printed ++ lines } := rfl

theorem ends_sayWith (start : String) {w : Wording} (hw : w.torn = false) (d : Desk) :
    Ends (sayWith start w) d (.ok ()) { d with printed := d.printed ++ [start ++ w.text] } := by
  simp only [sayWith, hw, Bool.false_eq_true, if_false]
  exact ends_say _ d

theorem sayWith_torn (start : String) {w : Wording} (hw : w.torn = true) (d : Desk) :
    Ends (sayWith start w) d (.error .unencodable) d := by
  simp only [sayWith, hw, if_true]
  exact ends_throw _ d

theorem ends_orStop {ε α : Type} (cause : ε → Stop) (r : Except ε α) (d : Desk) :
    Ends (orStop cause r) d (r.mapError cause) d := by
  cases r <;> rfl

theorem ends_store (h : d.files.HasRoom ps) (hp : p ∈ ps) (text : String) :
    Ends (store p text) d (.ok ()) { d with files := d.files.write p text } := by
  apply (ends_get d).bind
  rw [h.store_eq hp]
  exact (ends_orStop _ _ d).bind rfl

/-- A text is written, or the file is left empty. -/
theorem ends_storeWording (h : d.files.HasRoom ps) (hp : p ∈ ps) (w : Wording) :
    Ends (storeWording p w) d (if w.torn then .error .unencodable else .ok ())
      { d with files := d.files.write p (if w.torn then "" else w.text) } := by
  unfold storeWording
  cases w.torn with
  | true => exact (ends_store h hp _).bind (ends_throw _ _)
  | false => exact ends_store h hp _

theorem ends_makeDirectories (h : d.files.makeDirectories p = .ok made) :
    Ends (makeDirectories p) d (.ok ()) { d with files := made } := by
  apply (ends_get d).bind
  rw [h]
  exact (ends_orStop _ _ d).bind rfl

theorem fromUTF8?_toUTF8 (s : String) : String.fromUTF8? s.toUTF8 = some s := dif_pos s.isValidUTF8

theorem ends_readText {content : String} (h : d.files.bytes p = .ok content.toUTF8) :
    Ends (readText p) d (.ok (String.ofList (Text.unifyNewlines content.toList))) d := by
  apply (ends_get d).bind
  rw [h]
  apply (ends_orStop _ _ d).bind
  rw [fromUTF8?_toUTF8]
  exact ends_pure _ d

theorem ends_storeJson {j : Json} (hj : j.isTorn = false) (h : d.files.HasRoom ps) (hp : p ∈ ps) :
    Ends (storeJson p j) d (.ok ()) { d with files := d.files.write p j.render } := by
  simp only [storeJson, hj, Bool.false_eq_true, if_false]
  exact ends_store h hp _

theorem storeJson_torn {j : Json} (hj : j.isTorn = true) (h : d.files.HasRoom ps) (hp : p ∈ ps) :
    ∃ d', Ends (storeJson p j) d (.error .unencodable) d' := by
  simp only [storeJson, hj, if_true]
  exact ⟨_, (ends_store h hp _).bind (ends_throw _ _)⟩

end Job

end CrossCall
