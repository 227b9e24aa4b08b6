import Mathlib.Algebra.Order.Ring.Int

/-!
# Error codes
-/

namespace MixUpOS.AK

/-- The `errno` values that the modelled code returns. -/
inductive ErrNo where
  | EPERM
  | ENOENT
  | ENOMEM
  | EACCES
  | EFAULT
  | EBUSY
  | EEXIST
  | EXDEV
  | ENODEV
  | ENOTDIR
  | EISDIR
  | EINVAL
  | EROFS
  | ENAMETOOLONG
  | ENOTEMPTY
  | ELOOP
  | EOVERFLOW
  | EPROMISEVIOLATION
  | EDIRINTOSELF
  | E2BIG
  | EAGAIN
  | ENOTSUP
deriving DecidableEq, Repr

/-- `ErrorOr<T>`. -/
abbrev ErrorOr (α : Type) := Except ErrNo α

end MixUpOS.AK
