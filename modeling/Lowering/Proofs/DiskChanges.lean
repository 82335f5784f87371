import Lowering.Command.Disk
import Lowering.Proofs.ActionRuns

/-! What writing to a disk changes on it. Directories are only made where nothing was, a file is
written in one place, and there it can be read again under the same path. -/

namespace Lowering.Disk

variable {disk before middle after : Disk} {location : Location}

private theorem lookup_filter_ne {entries : List (Location × DiskEntry)} {other : Location} (apart : other ≠ location) :
    (entries.filter fun entry => entry.1 ≠ location).lookup other = entries.lookup other := by
  induction entries with
  | nil => rfl
  | cons entry rest ih =>
    obtain ⟨name, held⟩ := entry
    by_cases same : name = location
    · rw [List.filter_cons_of_neg (by simpa using same), ih, List.lookup_cons, beq_false_of_ne (same ▸ apart)]
    · rw [List.filter_cons_of_pos (by simpa using same), List.lookup_cons, List.lookup_cons, ih]

theorem find?_put (entry : DiskEntry) (below : location ≠ []) : (disk.put location entry).find? location = some entry := by
  simp [find?, put, below]

theorem find?_put_of_ne (entry : DiskEntry) {other : Location} (apart : other ≠ location) :
    (disk.put location entry).find? other = disk.find? other := by
  have unlike : (other == location) = false := beq_false_of_ne apart
  simp only [find?, put, List.lookup_cons, unlike, lookup_filter_ne apart]

/-- Nothing has changed but that there are more directories. -/
structure GainsDirectories (before after : Disk) : Prop where
  home : after.home = before.home
  find? : ∀ location, after.find? location = before.find? location ∨
    before.find? location = none ∧ after.find? location = some .directory

theorem GainsDirectories.refl (disk : Disk) : GainsDirectories disk disk :=
  ⟨rfl, fun _ => .inl rfl⟩

theorem GainsDirectories.trans (first : GainsDirectories before middle) (last : GainsDirectories middle after) :
    GainsDirectories before after := by
  refine ⟨last.home.trans first.home, fun location => ?_⟩
  rcases first.find? location with same | ⟨free, made⟩
  · rw [← same]
    exact last.find? location
  · rcases last.find? location with same | ⟨free', _⟩
    · exact .inr ⟨free, same.trans made⟩
    · rw [made] at free'
      cases free'

theorem held?_ok {here : Location} {name : String} {held : Option DiskEntry} :
    disk.held? here name = .ok held ↔ name.utf8ByteSize ≤ longestName ∧ disk.find? (here ++ [name]) = held := by
  rw [← Nat.not_lt]
  unfold held?
  split <;> simp [*]

/-- What a path leads to, other than back to a directory, is what its last name has there. -/
theorem arrive_ok {here : Location} {name : Option String} {target : Target} (arrived : disk.arrive here name = .ok target) :
    (∃ location, target = .entry location .directory) ∨ ∃ location, location ≠ [] ∧
      ((∃ entry, disk.find? location = some entry ∧ target = .entry location entry) ∨
        disk.find? location = none ∧ target = .free location) := by
  unfold arrive at arrived
  split at arrived
  · cases arrived
    exact .inl ⟨_, rfl⟩
  · cases arrived
    exact .inl ⟨_, rfl⟩
  · cases arrived
    exact .inl ⟨_, rfl⟩
  next name _ _ =>
    obtain ⟨held, looked, arrived⟩ := except_bind_ok.mp arrived
    obtain ⟨_, found⟩ := held?_ok.mp looked
    refine .inr ⟨here ++ [name], by simp, ?_⟩
    cases held with
    | some entry =>
      cases arrived
      exact .inl ⟨entry, found, rfl⟩
    | none =>
      cases arrived
      exact .inr ⟨found, rfl⟩

theorem resolve_ok {path : String} {target : Target} :
    disk.resolve path = .ok target ↔
      ∃ here, disk.above path = .ok here ∧ disk.arrive here (Path.names path).getLast? = .ok target :=
  except_bind_ok

theorem makeDirectory_gains {path : String} (made : before.makeDirectory path = .ok after) :
    GainsDirectories before after := by
  obtain ⟨target, led, put⟩ := except_bind_ok.mp made
  obtain ⟨here, _, arrived⟩ := resolve_ok.mp led
  rcases arrive_ok arrived with ⟨_, rfl⟩ | ⟨location, below, ⟨_, _, rfl⟩ | ⟨free, rfl⟩⟩
  · cases put
  · cases put
  · cases put
    refine ⟨rfl, fun other => ?_⟩
    by_cases same : other = location
    · subst same
      exact .inr ⟨free, find?_put _ below⟩
    · exact .inl (find?_put_of_ne _ same)

theorem makeDirectories_gains (paths : List String) (before : Disk) :
    GainsDirectories before (before.makeDirectories paths).2 := by
  induction paths generalizing before with
  | nil => exact .refl before
  | cons path above ih =>
    simp only [makeDirectories]
    split
    next made => exact makeDirectory_gains made
    · have outer := ih before
      split
      next went => rwa [went] at outer
      next went =>
        rw [went] at outer
        split
        next made => exact outer.trans (makeDirectory_gains made)
        next => split <;> exact outer
    · split <;> exact .refl before

/-- The way through directories is not affected by what is put where none of them is. -/
theorem follow_put {entry : DiskEntry} (apart : disk.find? location ≠ some .directory) {names : List String}
    {here there : Location} (followed : disk.follow here names = .ok there) :
    (disk.put location entry).follow here names = .ok there := by
  fun_induction follow disk here names with
  | case1 here => exact followed
  | case2 here rest ih => exact ih followed
  | case3 here rest ih => exact ih followed
  | case4 here name rest plain notUp ih =>
    obtain ⟨held, looked, followed⟩ := except_bind_ok.mp followed
    cases held with
    | none => cases followed
    | some found =>
      cases found with
      | file bytes => cases followed
      | directory =>
        obtain ⟨short, found⟩ := held?_ok.mp looked
        have elsewhere : here ++ [name] ≠ location := by
          rintro rfl
          exact apart found
        have again : (disk.put location entry).held? here name = .ok (some .directory) :=
          held?_ok.mpr ⟨short, (find?_put_of_ne entry elsewhere).trans found⟩
        rw [follow]
        · rw [again]
          exact ih followed
        · exact plain
        · exact notUp

theorem above_put (entry : DiskEntry) (apart : disk.find? location ≠ some .directory) {path : String}
    {here : Location} (led : disk.above path = .ok here) : (disk.put location entry).above path = .ok here := by
  unfold above at led ⊢
  split at led
  · cases led
  next some =>
    split at led
    · cases led
    next short =>
      rw [if_neg some, if_neg short]
      exact follow_put apart led

theorem fromUTF8?_toUTF8 (text : String) : String.fromUTF8? text.toUTF8 = some text :=
  dif_pos text.isValidUTF8

/-- A file may be written here: nothing or a file is there now. -/
def Target.IsFileAt (location : Location) (target : Target) : Prop :=
  target = .free location ∨ ∃ bytes, target = .entry location (.file bytes)

theorem Target.IsFileAt.apart {here : Location} {name : Option String} {target : Target}
    (fits : target.IsFileAt location) (arrived : disk.arrive here name = .ok target) :
    disk.find? location ≠ some .directory := by
  rcases arrive_ok arrived with ⟨_, rfl⟩ | ⟨_, _, ⟨entry, found, rfl⟩ | ⟨free, rfl⟩⟩
  · rcases fits with same | ⟨_, same⟩ <;> cases same
  · rcases fits with same | ⟨_, same⟩ <;> cases same
    simp [found]
  · rcases fits with same | ⟨_, same⟩ <;> cases same
    simp [free]

theorem arrive_put (entry : DiskEntry) {here : Location} {name : Option String} {target : Target}
    (fits : target.IsFileAt location) (arrived : disk.arrive here name = .ok target) :
    (disk.put location entry).arrive here name = .ok (.entry location entry) := by
  unfold arrive at arrived ⊢
  split at arrived
  · cases arrived
    rcases fits with same | ⟨_, same⟩ <;> cases same
  · cases arrived
    rcases fits with same | ⟨_, same⟩ <;> cases same
  · cases arrived
    rcases fits with same | ⟨_, same⟩ <;> cases same
  next name _ _ =>
    obtain ⟨held, looked, arrived⟩ := except_bind_ok.mp arrived
    have there : location = here ++ [name] := by
      cases held <;> cases arrived <;> (rcases fits with same | ⟨_, same⟩ <;> cases same) <;> rfl
    subst there
    have again : (disk.put (here ++ [name]) entry).held? here name = .ok (some entry) :=
      held?_ok.mpr ⟨(held?_ok.mp looked).1, find?_put entry (by simp)⟩
    rw [again]
    rfl

/-- A file that was written is in one place, where it is read under the path that it was written
under, and nothing else has changed. -/
theorem write_ok {path text : String} (written : before.write path text = .ok after) :
    after.read path = .ok text ∧ ∃ location, after.resolve path = .ok (.entry location (.file text.toUTF8)) ∧
      ∀ other, other ≠ location → after.find? other = before.find? other := by
  obtain ⟨here, led, written⟩ := except_bind_ok.mp written
  split at written
  · cases written
  next named =>
    obtain ⟨target, arrived, written⟩ := except_bind_ok.mp written
    have fits : ∃ location, target.IsFileAt location ∧ before.put location (.file text.toUTF8) = after := by
      split at written
      · cases written
      next location => exact ⟨location, .inl rfl, Except.ok.inj written⟩
      next location bytes => exact ⟨location, .inr ⟨bytes, rfl⟩, Except.ok.inj written⟩
    obtain ⟨location, fits, rfl⟩ := fits
    have leads := resolve_ok.mpr ⟨here, above_put (.file text.toUTF8) (fits.apart arrived) led, arrive_put _ fits arrived⟩
    refine ⟨except_bind_ok.mpr ⟨_, leads, ?_⟩, location, leads, fun other apart => find?_put_of_ne _ apart⟩
    simp only [named, fromUTF8?_toUTF8]
    rfl

end Lowering.Disk
