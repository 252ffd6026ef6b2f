import CeeServe.Lib.Decimal
import CeeServe.Server.System

/-! # From the command line to the first accept

`main` reads a port and a directory, makes the socket that it listens on, and begins its
loop. Every call that fails ends it with a message of its own.
-/
namespace CeeServe.Server
open CString Decimal Machine Response

/-- The number `atoi` reads: space and a sign are skipped, and the digits end it. -/
def strtol (nptr : List UInt8) : ℤ :=
  match nptr.dropWhile isspace with
  | [] => 0
  | c :: s =>
    if c = 45 then -(ofDecimal (s.takeWhile isDigit) : ℤ) -- '-'
    else if c = 43 then ofDecimal (s.takeWhile isDigit) -- '+'
    else ofDecimal ((c :: s).takeWhile isDigit)

/-- Undefined for a number that is no `int`. -/
def atoi (nptr : List UInt8) : Option ℤ :=
  if -2 ^ 31 ≤ strtol nptr ∧ strtol nptr < 2 ^ 31 then some (strtol nptr) else none

/-- The bytes of a short change places on the way to the network. -/
def htons (hostshort : UInt16) : UInt16 := (hostshort <<< 8) ||| (hostshort >>> 8)

structure SockaddrIn where
  sinFamily : UInt16
  sinPort : UInt16
  sinAddr : UInt32
deriving DecidableEq, Repr

/-- `AF_INET` and `INADDR_ANY`; `htons` takes the port modulo the size of a short. -/
def listenAddress (port : ℤ) : SockaddrIn where
  sinFamily := 2
  sinPort := htons (UInt16.ofNat (port % 2 ^ 16).toNat)
  sinAddr := 0

/-- The port of an address in memory: its two bytes, the lower one first, as a number of
the network, which begins with the higher one. -/
def boundPort (addr : SockaddrIn) : ℕ := (addr.sinPort.toNat % 256) * 256 + addr.sinPort.toNat / 256

theorem toNat_htons (x : UInt16) : (htons x).toNat = (x.toNat % 256) * 256 + x.toNat / 256 := by
  have hx := x.toNat_lt
  have hleft : (x <<< 8).toNat = (x.toNat % 256) <<< 8 := by
    rw [UInt16.toNat_shiftLeft, show (8 : UInt16).toNat % 16 = 8 from rfl, Nat.shiftLeft_eq, Nat.shiftLeft_eq]
    omega
  have hright : (x >>> 8).toNat = x.toNat / 256 := by
    rw [UInt16.toNat_shiftRight, show (8 : UInt16).toNat % 16 = 8 from rfl, Nat.shiftRight_eq_div_pow]
  have hlow : x.toNat / 256 < 2 ^ 8 := by omega
  rw [htons, UInt16.toNat_or, hleft, hright, ← Nat.shiftLeft_add_eq_or_of_lt hlow, Nat.shiftLeft_eq]

theorem boundPort_listenAddress (port : ℤ) : (boundPort (listenAddress port) : ℤ) = port % 2 ^ 16 := by
  obtain ⟨n, hn⟩ : ∃ n, (port % 2 ^ 16).toNat = n := ⟨_, rfl⟩
  have hlt : n < 2 ^ 16 := by omega
  have hport : (UInt16.ofNat n).toNat = n := UInt16.toNat_ofNat'.trans (Nat.mod_eq_of_lt hlt)
  have hswap : (n % 256 * 256 + n / 256) % 256 * 256 + (n % 256 * 256 + n / 256) / 256 = n := by omega
  simp only [boundPort, listenAddress, toNat_htons, hn, hport, hswap]
  omega

theorem takeWhile_digits {digits rest : List UInt8} (hdigits : ∀ c ∈ digits, isDigit c = true)
    (hrest : ∀ c ∈ rest.head?, isDigit c = false) : (digits ++ rest).takeWhile isDigit = digits := by
  rw [List.takeWhile_append_of_pos hdigits]
  cases rest with
  | nil => simp
  | cons c rest => simp [hrest c rfl]

theorem strtol_decimalInt {space rest : List UInt8} (hspace : ∀ c ∈ space, isspace c = true)
    (hrest : ∀ c ∈ rest.head?, isDigit c = false) (z : ℤ) : strtol (space ++ decimalInt z ++ rest) = z := by
  have hskip : ∀ {c : UInt8} {s : List UInt8}, isspace c = false → (space ++ c :: s).dropWhile isspace = c :: s := by
    intro c s hc
    rw [List.dropWhile_append_of_pos hspace, List.dropWhile_cons_of_neg (by simp [hc])]
  cases z with
  | ofNat n =>
    obtain ⟨c, s, hcs⟩ := List.exists_cons_of_ne_nil (decimal_ne_nil n)
    have hdigit : isDigit c = true := isDigit_decimal (n := n) (by rw [hcs]; exact List.mem_cons_self)
    have hminus : c ≠ 45 := by
      rintro rfl
      exact absurd hdigit (by decide)
    have hplus : c ≠ 43 := by
      rintro rfl
      exact absurd hdigit (by decide)
    have hword : isspace c = false := by
      have hmem : c ∈ decimalInt n := by rw [decimalInt_natCast, hcs]; exact List.mem_cons_self
      exact (decimalInt_word hmem).1
    have hdigits := takeWhile_digits (fun _ => isDigit_decimal (n := n)) hrest
    have hback := ofDecimal_decimal n
    rw [Int.ofNat_eq_natCast, decimalInt_natCast, hcs, List.append_assoc, List.cons_append, strtol, hskip hword]
    rw [hcs, List.cons_append] at hdigits
    simp only [if_neg hminus, if_neg hplus, hdigits, ← hcs, hback]
  | negSucc n =>
    have hdigits := takeWhile_digits (fun _ => isDigit_decimal (n := n + 1)) hrest
    rw [decimalInt, List.append_assoc, List.cons_append, strtol, hskip (by decide)]
    simp only [if_pos, hdigits, ofDecimal_decimal]
    rfl

theorem atoi_decimalInt {space rest : List UInt8} (hspace : ∀ c ∈ space, isspace c = true)
    (hrest : ∀ c ∈ rest.head?, isDigit c = false) {z : ℤ} (hlo : -2 ^ 31 ≤ z) (hhi : z < 2 ^ 31) :
    atoi (space ++ decimalInt z ++ rest) = some z := by
  rw [atoi, strtol_decimalInt hspace hrest, if_pos ⟨hlo, hhi⟩]

inductive SetupCall where
  | chdir (path : List UInt8)
  | socket
  | setsockopt (listenSocket : ℤ)
  | bind (listenSocket : ℤ) (listenAddr : SockaddrIn)
  | listen (listenSocket : ℤ) (backlog : ℕ)
  | sigaction (act : SigAction)

structure SetupReturns where
  chdir : ℤ
  listenSocket : ℤ
  setsockopt : ℤ
  bind : ℤ
  listen : ℤ

structure Check where
  call : SetupCall
  ret : ℤ
  msg : List UInt8

/-- `if (call == -1) { error(msg); }` -/
def attempt (_ : Unit) (c : Check) : List (SetupCall ⊕ Action) × Option Unit :=
  if c.ret = -1 then (.inl c.call :: (error c.msg).1.map .inr, none) else ([.inl c.call], some ())

def checks (port : ℤ) (path : List UInt8) (r : SetupReturns) : List Check :=
  [⟨.chdir path, r.chdir, ascii "Couldn't set web root"⟩,
    ⟨.socket, r.listenSocket, ascii "Error opening socket"⟩,
    ⟨.setsockopt r.listenSocket, r.setsockopt, ascii "Error setsockopt"⟩,
    ⟨.bind r.listenSocket (listenAddress port), r.bind, ascii "Error binding"⟩,
    ⟨.listen r.listenSocket 5, r.listen, ascii "Error listen"⟩]

/-- `main` up to its loop, which it reaches with the handler registered. -/
def setup (argv : List UInt8 × List UInt8) (r : SetupReturns) :
    Option (List (SetupCall ⊕ Action) × Option (SigAction × Host)) :=
  (atoi argv.1).map fun port => andThen (run attempt () (checks port argv.2 r)) fun _ =>
    ([.inl (.sigaction registerZombieKiller)], some (registerZombieKiller, booted r.listenSocket))

/-- The calls go on up to the first one that fails, and `error` is the last thing done. -/
theorem run_attempts (cs : List Check) :
    ((∀ c ∈ cs, c.ret ≠ -1) ∧ run attempt () cs = (cs.map fun c => .inl c.call, some ())) ∨
      ∃ before c after, cs = before ++ c :: after ∧ (∀ b ∈ before, b.ret ≠ -1) ∧ c.ret = -1 ∧
        run attempt () cs =
          ((before.map fun c => .inl c.call) ++ [.inl c.call, .inr (.perror c.msg), .inr (.exited 1)], none) := by
  induction cs with
  | nil => exact Or.inl ⟨by simp, rfl⟩
  | cons c cs ih =>
    by_cases hfail : c.ret = -1
    · have hstop : attempt () c = ([.inl c.call, .inr (.perror c.msg), .inr (.exited 1)], none) := if_pos hfail
      exact Or.inr ⟨[], c, cs, rfl, by simp, hfail, run_cons_stop hstop cs⟩
    · have hnext : attempt () c = ([.inl c.call], some ()) := if_neg hfail
      rw [run_cons_next hnext]
      rcases ih with ⟨hok, hrun⟩ | ⟨before, d, after, rfl, hbefore, hd, hrun⟩
      · exact Or.inl ⟨List.forall_mem_cons.mpr ⟨hfail, hok⟩, by rw [hrun]; rfl⟩
      · exact Or.inr ⟨c :: before, d, after, rfl, List.forall_mem_cons.mpr ⟨hfail, hbefore⟩, hd, by rw [hrun]; rfl⟩

/-- For an argument that begins with a number, the socket is bound to this number modulo
65536. If no call fails, `main` reaches its loop with the handler registered; if one does,
it is the last one, and its message and the exit are all that follows. -/
theorem main_starts {space rest : List UInt8} (hspace : ∀ c ∈ space, isspace c = true)
    (hrest : ∀ c ∈ rest.head?, isDigit c = false) {z : ℤ} (hlo : -2 ^ 31 ≤ z) (hhi : z < 2 ^ 31) (path : List UInt8)
    (r : SetupReturns) :
    (∀ d addr, .bind d addr ∈ (checks z path r).map Check.call → d = r.listenSocket ∧ (boundPort addr : ℤ) = z % 2 ^ 16) ∧
      (((∀ c ∈ checks z path r, c.ret ≠ -1) ∧ setup (space ++ decimalInt z ++ rest, path) r =
          some (((checks z path r).map fun c => .inl c.call) ++ [.inl (.sigaction registerZombieKiller)],
            some (registerZombieKiller, booted r.listenSocket))) ∨
        ∃ before c after, checks z path r = before ++ c :: after ∧ (∀ b ∈ before, b.ret ≠ -1) ∧ c.ret = -1 ∧
          setup (space ++ decimalInt z ++ rest, path) r =
            some ((before.map fun c => .inl c.call) ++ [.inl c.call, .inr (.perror c.msg), .inr (.exited 1)], none)) := by
  constructor
  · intro d addr hmem
    simp only [checks, List.map_cons, List.map_nil, List.mem_cons, SetupCall.bind.injEq, reduceCtorEq, false_or,
      List.not_mem_nil, or_false] at hmem
    obtain ⟨rfl, rfl⟩ := hmem
    exact ⟨rfl, boundPort_listenAddress z⟩
  · rw [setup, atoi_decimalInt hspace hrest hlo hhi, Option.map_some]
    rcases run_attempts (checks z path r) with ⟨hok, hrun⟩ | ⟨before, c, after, hchecks, hbefore, hfail, hrun⟩
    · exact Or.inl ⟨hok, by rw [hrun, andThen_next]⟩
    · exact Or.inr ⟨before, c, after, hchecks, hbefore, hfail, by rw [hrun, andThen_stop]⟩

theorem main_starts_in_use : ∃ tr msg, setup ([32] ++ decimalInt 8080 ++ [], ascii "www") ⟨0, 3, 0, -1, 0⟩ =
    some (tr ++ [.inr (.perror msg), .inr (.exited 1)], none) := by
  obtain ⟨-, ⟨hok, -⟩ | ⟨before, c, after, -, -, -, hsetup⟩⟩ :=
    main_starts (show ∀ c ∈ [32], isspace c = true from List.forall_mem_singleton.mpr rfl)
      (show ∀ c ∈ ([] : List UInt8).head?, isDigit c = false by simp) (show -2 ^ 31 ≤ (8080 : ℤ) by decide) (by decide)
      (ascii "www") ⟨0, 3, 0, -1, 0⟩
  · exact absurd rfl (hok ⟨.bind 3 (listenAddress 8080), -1, ascii "Error binding"⟩ (by simp [checks]))
  · exact ⟨(before.map fun c => .inl c.call) ++ [.inl c.call], c.msg, by rw [hsetup, List.append_assoc]; rfl⟩

end CeeServe.Server
