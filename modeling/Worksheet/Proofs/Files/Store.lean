import Worksheet.Files.Store

/-!
# Reading what was written

A file is put in its place only where a path that is to be made leads, and there no directory is.
The steps of the path lead through directories, so the new file stands in the way of none of them,
and the path leads to it afterwards. A path that leads somewhere when it is to be made leads to the
same place when it is only followed.

Results:
* `FileStore.follow_put`: a path leads where it led when its file was made.
* `FileStore.read_of_write`: a file that was written is read.
-/
namespace Worksheet.FileStore

variable {s t : FileStore} {dir names steps : List String} {bytes : ByteArray} {path : String}

theorem find?_put_of_ne {others : List String} (h : others ≠ names) :
    (s.put names bytes).find? others = s.find? others := by
  have kept : (s.put names bytes).entries[others]? = s.entries[others]? := by
    simp only [put, Std.ExtTreeMap.getElem?_insert, Std.LawfulEqCmp.compare_eq_iff_eq,
      if_neg (Ne.symm h)]
  rw [find?, find?, kept]

theorem not_all_isOuter (h : s.find? names ≠ some .directory) : names.all isOuter = false := by
  refine Bool.eq_false_iff.mpr fun outer => h ?_
  rw [find?, if_pos outer]

/-- A path leads where it led when the file at its end was to be made. -/
theorem follow_put (h : s.follow true dir steps = .ok names)
    (free : s.find? names ≠ some .directory) :
    (s.put names bytes).follow false dir steps = .ok names := by
  fun_induction follow s true dir steps with
  | case1 => exact h
  | case2 dir step steps still ih =>
    rw [follow, if_pos still]
    exact ih h
  | case3 dir steps still ih =>
    rw [follow, if_neg still, if_pos rfl]
    exact ih h
  | case4 => cases h
  | case5 => cases h
  | case6 dir step still up short =>
    rw [follow, if_neg still, if_neg up, if_neg (by simp), if_neg short, if_pos rfl]
    exact h
  | case7 dir step steps still up _ short more found ih =>
    have other : (step :: dir).reverse ≠ names := fun same => free (same ▸ found)
    rw [follow, if_neg still, if_neg up, if_neg (by simp), if_neg short, if_neg more,
      find?_put_of_ne other, found]
    exact ih h
  | case8 => cases h
  | case9 => cases h

theorem resolve_put (h : s.resolve true path = .ok names) (free : s.find? names ≠ some .directory) :
    (s.put names bytes).resolve false path = .ok names := by
  unfold resolve at h ⊢
  split at h
  · cases h
  · split at h
    · cases h
    · split at h
      · cases h
      · next text short nonempty =>
        rw [if_neg text, if_neg short, if_neg nonempty]
        exact follow_put h free

/-- A file is written where its path leads, and no directory stands there. -/
theorem exists_names_of_write (h : s.write path bytes = .ok t) :
    ∃ names, s.resolve true path = .ok names ∧ s.find? names ≠ some .directory ∧
      t = s.put names bytes := by
  unfold write at h
  split at h
  · cases h
  · next names leads =>
    split at h
    · cases h
    · next free => cases h; exact ⟨names, leads, free, rfl⟩

/-- **Files.** A file that was written is read, whatever its path and the other files are. -/
theorem read_of_write (h : s.write path bytes = .ok t) : t.read path = .ok bytes := by
  obtain ⟨names, leads, free, rfl⟩ := exists_names_of_write h
  rw [read, look, resolve_put leads free]
  simp only [find?_put s bytes (not_all_isOuter free)]

end Worksheet.FileStore
