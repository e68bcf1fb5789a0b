import Mathlib.Data.List.Nodup

/-!
# The user library: error numbers

The codes of failed calls.  `try_from` finds the error with a number, as far as there is one:
the numbers have gaps.

Main results:

- Theorem `ErrorNum.tryFrom_eq_ok_iff`: `try_from` finds the error with a number.
- Theorem `ErrorNum.exists_number_iff`: which numbers have an error.
-/

namespace ParchTestbench

/-- `ErrorNum`. -/
inductive ErrorNum
  | NOERR | EPERM | ENOENT | ESRCH | EINTR | EIO | ENXIO | E2BIG | ENOEXEC | EBADF | ECHILD
  | EAGAIN | ENOMEM | EACCES | EFAULT | ENOTBLK | EBUSY | EEXIST | EXDEV | ENODEV | ENOTDIR
  | EISDIR | EINVAL | ENFILE | EMFILE | ENOTTY | ETXTBSY | EFBIG | ENOSPC | ESPIPE | EROFS
  | EMLINK | EPIPE | EDOM | ERANGE | EDEADLK | ENAMETOOLONG | ENOLCK | ENOSYS | ENOTEMPTY | ELOOP
  | ENOMSG | EIDRM | ECHRNG | EL2NSYNC | EL3HLT | EL3RST | ELNRNG | EUNATCH | ENOCSI | EL2HLT
  | EBADE | EBADR | EXFULL | ENOANO | EBADRQC | EBADSLT | EBFONT | ENOSTR | ENODATA | ETIME
  | ENOSR | ENONET | ENOPKG | EREMOTE | ENOLINK | EADV | ESRMNT | ECOMM | EPROTO | EMULTIHOP
  | EDOTDOT | EBADMSG | EOVERFLOW | ENOTUNIQ | EBADFD | EREMCHG | ELIBACC | ELIBBAD | ELIBSCN
  | ELIBMAX | ELIBEXEC | EILSEQ | ERESTART | ESTRPIPE | EUSERS | ENOTSOCK | EDESTADDRREQ
  | EMSGSIZE | EPROTOTYPE | ENOPROTOOPT | EPROTONOSUPPORT | ESOCKTNOSUPPORT | EOPNOTSUPP
  | EPFNOSUPPORT | EAFNOSUPPORT | EADDRINUSE | EADDRNOTAVAIL | ENETDOWN | ENETUNREACH | ENETRESET
  | ECONNABORTED | ECONNRESET | ENOBUFS | EISCONN | ENOTCONN | ESHUTDOWN | ETOOMANYREFS
  | ETIMEDOUT | ECONNREFUSED | EHOSTDOWN | EHOSTUNREACH | EALREADY | EINPROGRESS | ESTALE
  | EUCLEAN | ENOTNAM | ENAVAIL | EISNAM | EREMOTEIO | EDQUOT | ENOMEDIUM | EMEDIUMTYPE
  | ECANCELED | ENOKEY | EKEYEXPIRED | EKEYREVOKED | EKEYREJECTED | EOWNERDEAD | ENOTRECOVERABLE
  | EWRONGSEG | EEMPTY | EOOR | ENOTALIGNED | EBADTYPE | ENOTMAPPED | ENOSEG | EMMAPED | ENOSIG
  | ESIGDISABLED | EBADCODEX | EEOF
deriving DecidableEq, Repr

namespace ErrorNum

/-- The discriminant of an enumerator. -/
def number : ErrorNum → UInt64
  | .NOERR => 0
  | .EPERM => 1
  | .ENOENT => 2
  | .ESRCH => 3
  | .EINTR => 4
  | ErrorNum.EIO => 5
  | ErrorNum.ENXIO => 6
  | .E2BIG => 7
  | .ENOEXEC => 8
  | .EBADF => 9
  | .ECHILD => 10
  | .EAGAIN => 11
  | .ENOMEM => 12
  | .EACCES => 13
  | .EFAULT => 14
  | .ENOTBLK => 15
  | .EBUSY => 16
  | .EEXIST => 17
  | .EXDEV => 18
  | .ENODEV => 19
  | .ENOTDIR => 20
  | .EISDIR => 21
  | .EINVAL => 22
  | .ENFILE => 23
  | .EMFILE => 24
  | .ENOTTY => 25
  | .ETXTBSY => 26
  | .EFBIG => 27
  | .ENOSPC => 28
  | .ESPIPE => 29
  | .EROFS => 30
  | .EMLINK => 31
  | .EPIPE => 32
  | .EDOM => 33
  | .ERANGE => 34
  | .EDEADLK => 35
  | .ENAMETOOLONG => 36
  | .ENOLCK => 37
  | .ENOSYS => 38
  | .ENOTEMPTY => 39
  | .ELOOP => 40
  | .ENOMSG => 42
  | .EIDRM => 43
  | .ECHRNG => 44
  | .EL2NSYNC => 45
  | .EL3HLT => 46
  | .EL3RST => 47
  | .ELNRNG => 48
  | .EUNATCH => 49
  | .ENOCSI => 50
  | .EL2HLT => 51
  | .EBADE => 52
  | .EBADR => 53
  | .EXFULL => 54
  | .ENOANO => 55
  | .EBADRQC => 56
  | .EBADSLT => 57
  | .EBFONT => 59
  | .ENOSTR => 60
  | .ENODATA => 61
  | .ETIME => 62
  | .ENOSR => 63
  | .ENONET => 64
  | .ENOPKG => 65
  | .EREMOTE => 66
  | .ENOLINK => 67
  | .EADV => 68
  | .ESRMNT => 69
  | .ECOMM => 70
  | .EPROTO => 71
  | .EMULTIHOP => 72
  | .EDOTDOT => 73
  | .EBADMSG => 74
  | .EOVERFLOW => 75
  | .ENOTUNIQ => 76
  | .EBADFD => 77
  | .EREMCHG => 78
  | .ELIBACC => 79
  | .ELIBBAD => 80
  | .ELIBSCN => 81
  | .ELIBMAX => 82
  | .ELIBEXEC => 83
  | .EILSEQ => 84
  | .ERESTART => 85
  | .ESTRPIPE => 86
  | .EUSERS => 87
  | .ENOTSOCK => 88
  | .EDESTADDRREQ => 89
  | .EMSGSIZE => 90
  | .EPROTOTYPE => 91
  | .ENOPROTOOPT => 92
  | .EPROTONOSUPPORT => 93
  | .ESOCKTNOSUPPORT => 94
  | .EOPNOTSUPP => 95
  | .EPFNOSUPPORT => 96
  | .EAFNOSUPPORT => 97
  | .EADDRINUSE => 98
  | .EADDRNOTAVAIL => 99
  | .ENETDOWN => 100
  | .ENETUNREACH => 101
  | .ENETRESET => 102
  | .ECONNABORTED => 103
  | .ECONNRESET => 104
  | .ENOBUFS => 105
  | .EISCONN => 106
  | .ENOTCONN => 107
  | .ESHUTDOWN => 108
  | .ETOOMANYREFS => 109
  | .ETIMEDOUT => 110
  | .ECONNREFUSED => 111
  | .EHOSTDOWN => 112
  | .EHOSTUNREACH => 113
  | .EALREADY => 114
  | .EINPROGRESS => 115
  | .ESTALE => 116
  | .EUCLEAN => 117
  | .ENOTNAM => 118
  | .ENAVAIL => 119
  | .EISNAM => 120
  | ErrorNum.EREMOTEIO => 121
  | .EDQUOT => 122
  | .ENOMEDIUM => 123
  | .EMEDIUMTYPE => 124
  | .ECANCELED => 125
  | .ENOKEY => 126
  | .EKEYEXPIRED => 127
  | .EKEYREVOKED => 128
  | .EKEYREJECTED => 129
  | .EOWNERDEAD => 130
  | .ENOTRECOVERABLE => 131
  | .EWRONGSEG => 1000
  | .EEMPTY => 1001
  | .EOOR => 1002
  | .ENOTALIGNED => 1003
  | .EBADTYPE => 1004
  | .ENOTMAPPED => 1005
  | .ENOSEG => 1006
  | .EMMAPED => 1007
  | .ENOSIG => 1008
  | .ESIGDISABLED => 1009
  | .EBADCODEX => 1010
  | .EEOF => 2000

/-- The enumerators in their order, as the arms of `try_from` are. -/
def arms : List ErrorNum :=
  [.NOERR, .EPERM, .ENOENT, .ESRCH, .EINTR, ErrorNum.EIO, ErrorNum.ENXIO, .E2BIG, .ENOEXEC, .EBADF,
   .ECHILD, .EAGAIN, .ENOMEM, .EACCES, .EFAULT, .ENOTBLK, .EBUSY, .EEXIST, .EXDEV, .ENODEV,
   .ENOTDIR, .EISDIR, .EINVAL, .ENFILE, .EMFILE, .ENOTTY, .ETXTBSY, .EFBIG, .ENOSPC, .ESPIPE,
   .EROFS, .EMLINK, .EPIPE, .EDOM, .ERANGE, .EDEADLK, .ENAMETOOLONG, .ENOLCK, .ENOSYS, .ENOTEMPTY,
   .ELOOP, .ENOMSG, .EIDRM, .ECHRNG, .EL2NSYNC, .EL3HLT, .EL3RST, .ELNRNG, .EUNATCH, .ENOCSI,
   .EL2HLT, .EBADE, .EBADR, .EXFULL, .ENOANO, .EBADRQC, .EBADSLT, .EBFONT, .ENOSTR, .ENODATA,
   .ETIME, .ENOSR, .ENONET, .ENOPKG, .EREMOTE, .ENOLINK, .EADV, .ESRMNT, .ECOMM, .EPROTO,
   .EMULTIHOP, .EDOTDOT, .EBADMSG, .EOVERFLOW, .ENOTUNIQ, .EBADFD, .EREMCHG, .ELIBACC, .ELIBBAD,
   .ELIBSCN, .ELIBMAX, .ELIBEXEC, .EILSEQ, .ERESTART, .ESTRPIPE, .EUSERS, .ENOTSOCK, .EDESTADDRREQ,
   .EMSGSIZE, .EPROTOTYPE, .ENOPROTOOPT, .EPROTONOSUPPORT, .ESOCKTNOSUPPORT, .EOPNOTSUPP,
   .EPFNOSUPPORT, .EAFNOSUPPORT, .EADDRINUSE, .EADDRNOTAVAIL, .ENETDOWN, .ENETUNREACH, .ENETRESET,
   .ECONNABORTED, .ECONNRESET, .ENOBUFS, .EISCONN, .ENOTCONN, .ESHUTDOWN, .ETOOMANYREFS,
   .ETIMEDOUT, .ECONNREFUSED, .EHOSTDOWN, .EHOSTUNREACH, .EALREADY, .EINPROGRESS, .ESTALE,
   .EUCLEAN, .ENOTNAM, .ENAVAIL, .EISNAM, ErrorNum.EREMOTEIO, .EDQUOT, .ENOMEDIUM, .EMEDIUMTYPE,
   .ECANCELED, .ENOKEY, .EKEYEXPIRED, .EKEYREVOKED, .EKEYREJECTED, .EOWNERDEAD, .ENOTRECOVERABLE,
   .EWRONGSEG, .EEMPTY, .EOOR, .ENOTALIGNED, .EBADTYPE, .ENOTMAPPED, .ENOSEG, .EMMAPED, .ENOSIG,
   .ESIGDISABLED, .EBADCODEX, .EEOF]

/-- `ErrorNum::try_from`. -/
def tryFrom (v : UInt64) : Except ErrorNum ErrorNum :=
  match arms.find? fun e => v = e.number with
  | some e => .ok e
  | none => .error .ENOSYS

/-! ## The numbers of the errors -/

variable {e f : ErrorNum} {v : UInt64}

theorem mem_arms (e : ErrorNum) : e ∈ arms := by
  cases e <;> decide

/-- The numbers in the order of the arms. -/
theorem numbers_arms : arms.map (fun e => e.number.toNat) =
    ((List.range 132).filter fun n => n ≠ 41 ∧ n ≠ 58) ++ (List.range 11).map (1000 + ·) ++
      [2000] := by
  decide

/-- No two errors have one number. -/
theorem number_inj (h : e.number = f.number) : e = f := by
  have hchain : (arms.map fun e => e.number.toNat).IsChain (· < ·) := by
    rw [numbers_arms]
    decide +kernel
  have hnodup : (arms.map fun e => e.number.toNat).Nodup :=
    (List.isChain_iff_pairwise.mp hchain).imp Nat.ne_of_lt
  exact List.inj_on_of_nodup_map hnodup (mem_arms e) (mem_arms f) (congrArg UInt64.toNat h)

/-- `try_from` finds the error with the number. -/
theorem tryFrom_eq_ok_iff : tryFrom v = .ok e ↔ e.number = v := by
  unfold tryFrom
  constructor
  · intro h
    rcases hfind : arms.find? fun e => v = e.number with - | f
    · rw [hfind] at h
      cases h
    · rw [hfind] at h
      cases h
      have he := List.find?_some hfind
      exact (of_decide_eq_true he).symm
  · intro h
    rcases hfind : arms.find? fun e => v = e.number with - | f
    · have hnone := List.find?_eq_none.mp hfind e (mem_arms e)
      exact absurd (decide_eq_true h.symm) hnone
    · have hf := List.find?_some hfind
      rw [hfind, number_inj (h.trans (of_decide_eq_true hf))]

/-- Where no error has the number, `try_from` falls back to `ENOSYS`. -/
theorem tryFrom_eq_error (h : ∀ e : ErrorNum, e.number ≠ v) : tryFrom v = .error .ENOSYS := by
  unfold tryFrom
  rw [List.find?_eq_none.mpr fun e _ heq => h e (of_decide_eq_true heq).symm]

/-- The numbers that an error has. -/
def IsNumber (v : UInt64) : Prop :=
  v ≤ 131 ∧ v ≠ 41 ∧ v ≠ 58 ∨ 1000 ≤ v ∧ v ≤ 1010 ∨ v = 2000

theorem exists_number_iff : (∃ e : ErrorNum, e.number = v) ↔ IsNumber v := by
  have hmem : (∃ e : ErrorNum, e.number = v) ↔
      v.toNat ∈ arms.map fun e => e.number.toNat := by
    rw [List.mem_map]
    constructor
    · rintro ⟨e, rfl⟩
      exact ⟨e, mem_arms e, rfl⟩
    · rintro ⟨e, -, heq⟩
      exact ⟨e, UInt64.toNat_inj.mp heq⟩
  rw [hmem, numbers_arms, IsNumber]
  simp only [List.mem_append, List.mem_filter, List.mem_range, List.mem_map, List.mem_singleton,
    decide_eq_true_eq, UInt64.le_iff_toNat_le, ne_eq, ← UInt64.toNat_inj, UInt64.reduceToNat,
    or_assoc]
  constructor
  · rintro (⟨hlt, hne⟩ | ⟨k, hk, heq⟩ | heq)
    · exact Or.inl ⟨by omega, hne⟩
    · exact Or.inr (Or.inl (by omega))
    · exact Or.inr (Or.inr heq)
  · rintro (⟨hle, hne⟩ | ⟨hge, hle⟩ | heq)
    · exact Or.inl ⟨by omega, hne⟩
    · exact Or.inr (Or.inl ⟨v.toNat - 1000, by omega, by omega⟩)
    · exact Or.inr (Or.inr heq)

end ErrorNum

end ParchTestbench
