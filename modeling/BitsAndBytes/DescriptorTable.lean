import Mathlib.Logic.Function.Basic

/-! # Descriptor tables -/

namespace BitsAndBytes.DescriptorTable

open Function

variable {File : Type*}

abbrev Table (File : Type*) := Int → Option File

def close (table : Table File) (fd : Int) : Table File :=
  update table fd none

def dup2 (table : Table File) (fd target : Int) : Table File :=
  match table fd with
  | some file => update table target (some file)
  | none => table

def redirect (table : Table File) (fd target : Int) : Table File :=
  if fd ≠ target then close (dup2 table fd target) fd else table

def Holds (table : Table File) (file : File) : Prop :=
  ∃ fd, table fd = some file

variable {table : Table File} {fd target other : Int} {file : File}

theorem redirect_self : redirect table target target = table :=
  if_neg fun different => different rfl

theorem dup2_eq (opened : table fd = some file) :
    dup2 table fd target = update table target (some file) := by
  rw [dup2, opened]

variable {opened : Option File}

theorem close_update_self (fresh : table fd = none) :
    close (update table fd opened) fd = table := by
  rw [close, update_idem, ← fresh, update_eq_self]

theorem close_update_of_ne (different : other ≠ fd) :
    close (update table other opened) fd = update (close table fd) other opened :=
  update_comm different _ _ _

theorem redirect_update_self (different : fd ≠ target) (fresh : table fd = none) :
    redirect (update table fd (some file)) fd target = update table target (some file) := by
  rw [redirect, if_pos different, dup2_eq (update_self _ _ _), update_comm different]
  exact close_update_self (by rwa [update_of_ne different])

theorem redirect_update_of_ne (otherFd : other ≠ fd) (otherTarget : other ≠ target) :
    redirect (update table other opened) fd target =
      update (redirect table fd target) other opened := by
  by_cases different : fd ≠ target
  · rw [redirect, if_pos different, redirect, if_pos different, dup2, dup2,
      update_of_ne otherFd.symm]
    cases table fd with
    | none => exact close_update_of_ne otherFd
    | some file =>
      simp only
      rw [update_comm otherTarget, close_update_of_ne otherFd]
  · rw [redirect, if_neg different, redirect, if_neg different]

end BitsAndBytes.DescriptorTable
