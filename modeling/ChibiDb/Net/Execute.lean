import ChibiDb.Net.Packets

/-!
# Executing a Prepared Statement

COM_STMT_EXECUTE has the id of the statement, the flags and the iteration count, and
behind them the parameters: a bitmap of those that are NULL, the byte 1, a type of two
bytes for each, and the values that are not NULL. A client leaves all of this out where
there are no parameters. The server reads the byte 1 there too, and finds nothing.

## Main definitions

* `parseExecute`: The parameters as the server reads them.
* `Param`, `executePacket`: A parameter of a client, and what the client sends.

## Theorems

* `readParams_params`: The loop over the values.
* `params_read_iff`: Parameters are read as they were sent, if there are any.
-/

namespace ChibiDb.Net

open List Reader
open ReadsBackIn (run_bind)

/-- The value of a parameter. -/
inductive ParamValue where
  | int (n : Int)
  | float (x : Float)
  | str (s : String)

/-- Bytes that are passed over, whether they are there or not. -/
def skip (n : Nat) : Reader Unit := fun b => .ok ((), b.drop n)

-- what is made of bytes that are not UTF-8
variable (invalid : List UInt8 → String)

/-- Bytes as a text; what is not UTF-8 is replaced. -/
def fromUTF8Lossy (b : List UInt8) : String :=
  match fromUTF8 malformed b with
  | .ok s => s
  | .error _ => invalid b

/-- Read a parameter of a type. -/
def readParam (ty : Nat) : Reader ParamValue :=
  match ty with
  | 1 => do return .int (← signed malformed 1)
  | 2 => do return .int (← signed malformed 2)
  | 3 => do return .int (← signed malformed 4)
  | 8 => do return .int (← signed malformed 8)
  | 4 => do return .float (Float32.ofBits (.ofNat (← word malformed 4))).toFloat
  | 5 => do return .float (.ofBits (.ofNat (← word malformed 8)))
  | 0xfd | 0xfe => do return .str (fromUTF8Lossy invalid (← readLenencBytes))
  | _ => throw malformed

/-- Read a parameter that may be NULL. -/
def readOptional (isNull : Bool) (ty : Nat) : Reader (Option ParamValue) :=
  if isNull || ty == 6 then Pure.pure none else do return some (← readParam invalid ty)

/-- The values from parameter `i` on. -/
def readParams (nulls : List UInt8) : Nat → List Nat → Reader (List (Option ParamValue))
  | _, [] => return []
  | i, ty :: types => do
    let isNull := (nulls.getD (i / 8) 0).toNat.testBit (i % 8)
    let value ← readOptional invalid isNull ty
    return value :: (← readParams nulls (i + 1) types)

/-- Read a type and its flags. -/
def readType : Reader Nat := do
  let ty ← word malformed 1
  skip 1
  return ty

/-- Read the types, if the packet has them. -/
def readTypes (newBound numParams : Nat) : Reader (List Nat) :=
  if newBound = 1 then times readType numParams else Pure.pure (replicate numParams 0)

/-- Read a packet: header, NULL bits, types and values. -/
def readExecute (numParams : Nat) : Reader (List (Option ParamValue)) := do
  let _ ← word malformed 4
  skip (1 + 4)
  let nulls ← take malformed ((numParams + 7) / 8)
  let newBound ← word malformed 1
  let types ← readTypes newBound numParams
  readParams invalid nulls 0 types

/-- The parameters of a packet, if it can be read. -/
def parseExecute (payload : List UInt8) (numParams : Nat) : Option (List (Option ParamValue)) :=
  ((readExecute invalid numParams).run' payload).toOption

/-- The integer types of a client. -/
inductive IntType where
  | tiny | short | long | longlong

/-- The code of a type. -/
def IntType.code : IntType → Nat
  | .tiny => 1
  | .short => 2
  | .long => 3
  | .longlong => 8

/-- The bytes of a type. -/
def IntType.width : IntType → Nat
  | .tiny => 1
  | .short => 2
  | .long => 4
  | .longlong => 8

/-- A parameter of a client: NULL with any type, an integer in the range of its type, or
    a string of one of two types. -/
inductive Param where
  | null (ty : UInt8)
  | int (t : IntType) (n : Int) (h : -256 ^ t.width ≤ n * 2 ∧ n * 2 < 256 ^ t.width)
  | str (var : Bool) (s : Text)

namespace Param

/-- Whether a parameter is NULL. -/
def isNull : Param → Bool
  | .null _ => true
  | _ => false

/-- The type a parameter is sent with. -/
def type : Param → Nat
  | .null ty => ty.toNat
  | .int t _ _ => t.code
  | .str var _ => if var then 0xfd else 0xfe

/-- The bytes of a parameter. -/
def bytes : Param → List UInt8
  | .null _ => []
  | .int t n _ => putSigned t.width n
  | .str _ s => lenencStr s

/-- What the server is to read. -/
def value : Param → Option ParamValue
  | .null _ => none
  | .int _ n _ => some (.int n)
  | .str _ s => some (.str s.val)

end Param

/-- The bitmap, parameter by parameter from the lowest bit. -/
def nullBits (ps : List Param) : Nat := Nat.ofBits (fun i : Fin ps.length => ps[i].isNull)

/-- The packet a client sends. -/
def executePacket (id : UInt32) (flags : UInt8) (iterations : UInt32) (ps : List Param) :
    List UInt8 :=
  leBytes 4 id.toNat ++ ((leBytes 1 flags.toNat ++ leBytes 4 iterations.toNat) ++
    if ps = [] then [] else
      leBytes ((ps.length + 7) / 8) (nullBits ps) ++ (leBytes 1 1 ++
        (ps.flatMap (fun p => leBytes 1 p.type ++ [0]) ++ ps.flatMap Param.bytes)))

/-- A bit of the null bitmap sits where the source looks for it. -/
theorem testBit_leBytes {w i : Nat} (n : Nat) (h : i < 8 * w) :
    ((leBytes w n).getD (i / 8) 0).toNat.testBit (i % 8) = n.testBit i := by
  induction w generalizing n i with
  | zero => omega
  | succ w ih =>
    by_cases hi : i < 8
    · rw [Nat.div_eq_of_lt hi, Nat.mod_eq_of_lt hi, leBytes, getD_cons_zero, UInt8.toNat_ofNat',
        Nat.testBit_mod_two_pow, decide_eq_true hi, Bool.true_and]
    · rcases Nat.exists_eq_add_of_le' (not_lt.mp hi) with ⟨j, rfl⟩
      rw [Nat.add_div_right j (by decide), Nat.add_mod_right, leBytes, getD_cons_succ,
        ih (n / 256) (by omega), show 256 = 2 ^ 8 from rfl, Nat.testBit_div_two_pow]

theorem times_readType (ps : List Param) (rest : List UInt8) :
    times readType ps.length (ps.flatMap (fun p => leBytes 1 p.type ++ [0]) ++ rest) =
      .ok (ps.map Param.type, rest) := by
  induction ps with
  | nil => rfl
  | cons p ps ih =>
    have hty : p.type < 256 ^ 1 := by
      cases p with
      | null ty => exact ty.toNat_lt
      | int t => cases t <;> simp [Param.type, IntType.code]
      | str var => cases var <;> simp [Param.type]
    have hone : ∀ rest, readType (leBytes 1 p.type ++ [0] ++ rest) = .ok (p.type, rest) := by
      intro rest
      rw [append_assoc]
      exact run_bind (word_leBytes _ hty)
    rw [flatMap_cons, append_assoc]
    exact (run_bind (hone _)).trans (run_bind ih)

/-- A parameter reads back, null or not. -/
theorem readOptional_param (p : Param) (rest : List UInt8) :
    readOptional invalid p.isNull p.type (p.bytes ++ rest) = .ok (p.value, rest) := by
  cases p with
  | null => rfl
  | int t n hn =>
    have hread : signed malformed t.width (putSigned t.width n ++ rest) = .ok (n, rest) :=
      (ReadsBackIn.signed t.width).back n rest trivial
        (Int.bmod_eq_of_le_mul_two (by exact_mod_cast hn.1) (by exact_mod_cast hn.2))
    cases t <;> exact run_bind (a := ParamValue.int n) (run_bind hread)
  | str var s =>
    have hlossy : fromUTF8Lossy invalid (utf8 s.val) = s.val := by
      rw [fromUTF8Lossy, ReadsBackIn.fromUTF8_eq_ok.mpr rfl]
    have hread := readLenencBytes_lenencStr s rest
    rw [Param.value, ← hlossy]
    cases var <;> exact run_bind (a := ParamValue.str _) (run_bind hread)

/-- The bits from `i` on say which of the parameters are NULL. -/
theorem readParams_params {nulls : List UInt8} {ps : List Param} {i : Nat}
    (h : ∀ k (hk : k < ps.length),
      (nulls.getD ((i + k) / 8) 0).toNat.testBit ((i + k) % 8) = ps[k].isNull) :
    readParams invalid nulls i (ps.map Param.type) (ps.flatMap Param.bytes) =
      .ok (ps.map Param.value, []) := by
  induction ps generalizing i with
  | nil => rfl
  | cons p ps ih =>
    have hrest := ih (i := i + 1) fun k hk => by
      rw [Nat.add_assoc, Nat.add_comm 1]
      exact h (k + 1) (Nat.succ_lt_succ hk)
    have hbit := h 0 (Nat.succ_pos _)
    rw [map_cons, readParams, flatMap_cons]
    rw [Nat.add_zero, getElem_cons_zero] at hbit
    rw [hbit]
    exact (run_bind (readOptional_param invalid p _)).trans
      (run_bind hrest)

/-- An execute packet reads back as the values it was sent with. -/
theorem readExecute_packet (id : UInt32) (flags : UInt8) (iterations : UInt32) {ps : List Param}
    (h : ps ≠ []) : readExecute invalid ps.length (executePacket id flags iterations ps) =
      .ok (ps.map Param.value, []) := by
  have hskip : ∀ rest, skip (1 + 4) ((leBytes 1 flags.toNat ++ leBytes 4 iterations.toNat) ++ rest)
      = .ok ((), rest) := fun _ => rfl
  have htake : ∀ w n rest, take malformed w (leBytes w n ++ rest) = .ok (leBytes w n, rest) :=
    fun w n rest => (ReadsBackIn.take w).back _ rest (length_leBytes w n) trivial
  rw [executePacket, if_neg h, readExecute, run_bind (word_leBytes _ id.toNat_lt),
    run_bind (hskip _), run_bind (htake _ _ _),
    run_bind (word_leBytes _ (by decide)), readTypes, if_pos rfl,
    run_bind (times_readType ps _)]
  refine readParams_params invalid fun k hk => ?_
  rw [Nat.zero_add, testBit_leBytes _ (by omega), nullBits, Nat.testBit_ofBits_lt _ _ hk]
  rfl

/-- The parameters are read exactly as they were sent, if there are any. -/
theorem params_read_iff (id : UInt32) (flags : UInt8) (iterations : UInt32) (ps : List Param) :
    parseExecute invalid (executePacket id flags iterations ps) ps.length =
      some (ps.map Param.value) ↔ ps ≠ [] := by
  refine ⟨?_, fun hps => ?_⟩
  · rintro h rfl
    cases h
  · change (Prod.fst <$> readExecute invalid _ _).toOption = _
    rw [readExecute_packet invalid id flags iterations hps]
    rfl

/-- A statement without parameters is not executed. -/
theorem no_params_not_read :
    parseExecute (fun _ => "") (executePacket 1 0 1 []) 0 ≠ some [] := nofun

end ChibiDb.Net
