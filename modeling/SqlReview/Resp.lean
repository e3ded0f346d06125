import SqlReview.ExactReader
import SqlReview.GoNumber
import SqlReview.GoText

-- The Redis protocol as redis.conn writes and reads it.
namespace SqlReview.Resp
open GoBytes GoText GoNumber ExactReader

-- What readReply returns; an Error of the server is a reply too.
inductive Reply where
  | status (s : Bytes)
  | error (s : Bytes)
  | integer (n : Int64)
  | bulk (p : Bytes)
  | null
  | array (items : List Reply)

-- What keeps it from one; `makeslice` is the panic of make for a length out of range.
inductive ReadError where
  | eof
  | protocol (message : Text)
  | makeslice
  deriving DecidableEq

abbrev Read (α : Type) := Reader UInt8 ReadError α

def fail (message : String) : Read α := throw (.protocol (text message))

def crlf : Bytes := [byte '\r',byte '\n']

-- bufio's ReadSlice with what readLine does where the buffer is full.
def readSlice (delim : UInt8) : Bytes → Option (Bytes × Bytes)
  | [] => none
  | b :: rest =>
    if b = delim then some ([b],rest) else (readSlice delim rest).map fun found => (b :: found.1,found.2)

def readLine : Read Bytes := fun s =>
  match readSlice (byte '\n') s with
  | none => .error .eof
  | some (p,rest) =>
    if p.length < 2 ∨ p[p.length-2]? ≠ some (byte '\r') then .error
      (.protocol (text "bad response line terminator"))
    else .ok (p.take (p.length-2),rest)

-- The loop of parseLen and parseInt; n wraps around.
def accumulate : Int64 → Bytes → Except ReadError Int64
  | n,[] => .ok n
  | n,b :: rest =>
    match digit? b with
    | none => .error (.protocol (text "illegal bytes in length"))
    | some d => accumulate (n*10+Int64.ofNat d) rest

def parseLen (p : Bytes) : Except ReadError Int64 :=
  if p = [] then .error (.protocol (text "malformed length"))
  else if p = [byte '-',byte '1'] then .ok (-1)
  else accumulate 0 p

def parseInt : Bytes → Except ReadError Int64
  | [] => .error (.protocol (text "malformed integer"))
  | b :: p =>
    if b = byte '-' then
      if p = [] then .error (.protocol (text "malformed integer")) else (accumulate 0 p).map (- ·)
    else accumulate 0 (b :: p)

-- The most bytes that make takes; memory is not what it runs out of before.
def maxAlloc : Nat := 2^48

-- make for n elements of `size` bytes in a process with `room`, and without a bound for one that
-- does not use it.
def make (room : Option Nat) (size : Nat) (n : Int64) : Read Unit :=
  if room.all (size*n.toInt.toNat ≤ ·) then pure () else throw .makeslice

section
variable (room : Option Nat)

-- What stands behind a line "$n".
def readBulk (n : Int64) : Read Reply :=
  if n < 0 then pure .null
  else do
    make room 1 n
    let p ← readFull .eof n.toInt.toNat
    let line ← readLine
    if line ≠ [] then fail "bad bulk string format" else return .bulk p

-- What stands behind a line "*n"; an interface is of two words.
def readArray (again : Read Reply) (n : Int64) : Read Reply :=
  if n < 0 then pure .null
  else do
    make room 16 n
    let r ← items again n.toInt.toNat
    return .array r

-- readReply after its first line; `again` reads the items of an array.
def replyOf (again : Read Reply) : Bytes → Read Reply
  | [] => fail "short response line"
  | kind :: data =>
    if kind = byte '+' then return .status data
    else if kind = byte '-' then return .error data
    else if kind = byte ':' then
      match parseInt data with
      | .error err => throw err
      | .ok n => return .integer n
    else if kind = byte '$' then
      match parseLen data with
      | .error err => throw err
      | .ok n => readBulk room n
    else if kind = byte '*' then
      match parseLen data with
      | .error err => throw err
      | .ok n => readArray room again n
    else fail "unexpected response line"

-- `depth` bounds the nesting, which the length of the stream bounds.
def nested : Nat → Read Reply
  | 0 => throw .eof
  | depth+1 => readLine >>= replyOf room (nested depth)

def readReplyIn : Read Reply := fun s => nested room (s.length+1) s
end

def readReply : Read Reply := readReplyIn (some maxAlloc)

-- The other side of the connection, which reads commands in the same format.
def readRequest : Read Reply := readReplyIn none

-- The loop of writeLen, which fills its buffer from the end.
def writeDigits (n : Nat) (scratch : Bytes) : Bytes :=
  if n/10 = 0 then UInt8.ofNat ((byte '0').toNat+n%10) :: scratch
  else writeDigits (n/10) (UInt8.ofNat ((byte '0').toNat+n%10) :: scratch)

def writeLen (kind : UInt8) (n : Nat) : Bytes := kind :: writeDigits n crlf

def writeBytes (p : Bytes) : Bytes := writeLen (byte '$') p.length ++ p ++ crlf

-- An argument of a command. `printed` is what strconv.AppendFloat or fmt.Fprint make of it.
inductive Arg where
  | string (s : Bytes)
  | bytes (p : Bytes)
  | int (n : Int64)
  | float64 (printed : Bytes)
  | bool (b : Bool)
  | nil
  | argument (redisArg : Arg) (printed : Bytes)
  | other (printed : Bytes)

def writeArg (argumentTypeOK : Bool) : Arg → Bytes
  | .string s => writeBytes s
  | .bytes p => writeBytes p
  | .int n => writeBytes (itoa n.toInt)
  | .float64 printed => writeBytes printed
  | .bool b => if b then writeBytes (str "1") else writeBytes (str "0")
  | .nil => writeBytes []
  | .argument redisArg printed => if argumentTypeOK then writeArg false redisArg else writeBytes printed
  | .other printed => writeBytes printed

def writeCommand (cmd : Bytes) (args : List Arg) : Bytes :=
  writeLen (byte '*') (1+args.length) ++ writeBytes cmd ++ args.flatMap (writeArg true)

section Depth
-- What a reader leaves is no more than what it was given.
def Shrinks (read : Read α) : Prop := ∀ s x rest,read s = .ok (x,rest) → rest.length ≤ s.length

theorem readSlice_length (found : readSlice delim s = some (p,rest)) :
    rest.length+p.length = s.length ∧ p ≠ [] := by
  induction s generalizing p rest with
  | nil => cases found
  | cons b s ih =>
    rw [readSlice] at found
    split at found
    · cases Option.some.inj found
      exact ⟨rfl,List.cons_ne_nil _ _⟩
    · obtain ⟨⟨q,more⟩,later,same⟩ := Option.map_eq_some_iff.mp found
      obtain ⟨rfl,rfl⟩ := Prod.mk.inj same
      have length := (ih later).1
      refine ⟨?_,List.cons_ne_nil _ _⟩
      simp only [List.length_cons]
      omega

theorem readLine_less (found : readLine s = .ok (line,rest)) : rest.length < s.length := by
  unfold readLine at found
  split at found
  · cases found
  · rename_i p more sliced
    obtain ⟨length,some_⟩ := readSlice_length sliced
    have room := List.length_pos_iff.mpr some_
    split at found
    · cases found
    · cases found
      omega

theorem Shrinks.bind {read : Read α} {next : α → Read β} (first : Shrinks read)
    (second : ∀ x,Shrinks (next x)) : Shrinks (read >>= next) := by
  intro s y rest found
  cases ends : read s with
  | error err =>
    rw [bind_error ends] at found
    cases found
  | ok result =>
    rw [bind_ok ends] at found
    exact Nat.le_trans (second _ _ _ _ found) (first _ _ _ ends)

theorem Shrinks.pure (x : α) : Shrinks (pure x : Read α) := by
  intro s y rest found
  cases found
  exact Nat.le_refl _

theorem Shrinks.throw (err : ReadError) : Shrinks (throw err : Read α) := by
  intro s y rest found
  cases found

theorem readFull_shrinks (n : Nat) : Shrinks (readFull .eof n : Read Bytes) := by
  intro s x rest found
  unfold readFull at found
  split at found
  · cases found
  · cases found
    rw [List.length_drop]
    omega

theorem readLine_shrinks : Shrinks readLine := fun _ _ _ found => Nat.le_of_lt (readLine_less found)

theorem make_shrinks (room : Option Nat) (size : Nat) (n : Int64) : Shrinks (make room size n) := by
  unfold make
  split
  · exact .pure _
  · exact .throw _

theorem readBulk_shrinks (n : Int64) : Shrinks (readBulk room n) := by
  unfold readBulk
  split
  · exact .pure _
  · refine (make_shrinks _ _ _).bind fun _ => (readFull_shrinks _).bind fun p =>
      readLine_shrinks.bind fun line => ?_
    split
    · exact .throw _
    · exact .pure _

theorem items_shrinks {read : Read α} (shrinks : Shrinks read) (n : Nat) : Shrinks (items read n) := by
  induction n with
  | zero => exact .pure _
  | succ n ih => exact shrinks.bind fun x => ih.bind fun rest => .pure _

theorem readArray_shrinks {again : Read Reply} (shrinks : Shrinks again) (n : Int64) :
    Shrinks (readArray room again n) := by
  unfold readArray
  split
  · exact .pure _
  · exact (make_shrinks _ _ _).bind fun _ => (items_shrinks shrinks _).bind fun r => .pure _

theorem replyOf_shrinks {again : Read Reply} (shrinks : Shrinks again) (line : Bytes) :
    Shrinks (replyOf room again line) := by
  unfold replyOf
  split
  · exact .throw _
  · repeat' split
    all_goals first
      | exact .pure _
      | exact .throw _
      | exact readBulk_shrinks _
      | exact readArray_shrinks shrinks _

theorem nested_shrinks (room : Option Nat) (depth : Nat) : Shrinks (nested room depth) := by
  induction depth with
  | zero => exact .throw _
  | succ depth ih => exact readLine_shrinks.bind fun line => replyOf_shrinks ih line

-- Readers that agree on streams up to a length.
theorem items_agree {f g : Read α} (shrinks : Shrinks f) (agree : ∀ s,s.length ≤ bound → f s = g s)
    (n : Nat) (s : Bytes)
    (short : s.length ≤ bound) : items f n s = items g n s := by
  induction n generalizing s with
  | zero => rfl
  | succ n ih =>
    cases ends : f s with
    | error err => rw [items,items,bind_error ends,bind_error ((agree s short).symm.trans ends)]
    | ok result =>
      obtain ⟨x,rest⟩ := result
      have less := shrinks _ _ _ ends
      have later := ih rest (Nat.le_trans less short)
      rw [items,items,bind_ok ends,bind_ok ((agree s short).symm.trans ends)]
      cases tail : items f n rest with
      | error err => rw [bind_error tail,bind_error (later.symm.trans tail)]
      | ok result => rw [bind_ok tail,bind_ok (later.symm.trans tail)]

theorem readArray_agree {f g : Read Reply} (shrinks : Shrinks f)
    (agree : ∀ s,s.length ≤ bound → f s = g s) (n : Int64)
    (s : Bytes) (short : s.length ≤ bound) : readArray room f n s = readArray room g n s := by
  have both := items_agree shrinks agree n.toInt.toNat s short
  have same : (items f n.toInt.toNat >>= fun r => (return .array r : Read Reply)) s =
      (items g n.toInt.toNat >>= fun r => return .array r) s := by
    cases ends : items f n.toInt.toNat s with
    | error err => rw [bind_error ends,bind_error (both.symm.trans ends)]
    | ok result => rw [bind_ok ends,bind_ok (both.symm.trans ends)]
  unfold readArray
  split
  · rfl
  · unfold make
    split
    · exact same
    · rfl

theorem replyOf_agree {f g : Read Reply} (shrinks : Shrinks f)
    (agree : ∀ s,s.length ≤ bound → f s = g s) (line s : Bytes)
    (short : s.length ≤ bound) : replyOf room f line s = replyOf room g line s := by
  cases line with
  | nil => rfl
  | cons kind data =>
    simp only [replyOf]
    split
    · rfl
    · split
      · rfl
      · split
        · rfl
        · split
          · rfl
          · split
            · cases parseLen data with
              | error err => rfl
              | ok n => exact readArray_agree shrinks agree n s short
            · rfl

theorem nested_enough (d e : Nat) (s : Bytes) (first : s.length < d) (second : s.length < e) :
    nested room d s = nested room e s := by
  induction d generalizing e s with
  | zero => exact absurd first (Nat.not_lt_zero _)
  | succ d ih =>
    cases e with
    | zero => exact absurd second (Nat.not_lt_zero _)
    | succ e =>
      rw [nested,nested]
      cases ends : readLine s with
      | error err => rw [bind_error ends,bind_error ends]
      | ok result =>
        obtain ⟨line,rest⟩ := result
        have less := readLine_less ends
        rw [bind_ok ends,bind_ok ends]
        refine replyOf_agree (nested_shrinks room d) (fun t short => ?_) line rest (Nat.le_refl _)
        exact ih e t (by omega) (by omega)

-- readReply calls itself.
theorem readReply_eq (room : Option Nat) (s : Bytes) :
    readReplyIn room s = (readLine >>= replyOf room (readReplyIn room)) s := by
  rw [readReplyIn,nested]
  cases ends : readLine s with
  | error err => rw [bind_error ends,bind_error ends]
  | ok result =>
    obtain ⟨line,rest⟩ := result
    have less := readLine_less ends
    rw [bind_ok ends,bind_ok ends]
    refine replyOf_agree (nested_shrinks room _) (fun t short => ?_) line rest (Nat.le_refl _)
    exact nested_enough _ _ t (by omega) (by omega)
end Depth

end SqlReview.Resp
