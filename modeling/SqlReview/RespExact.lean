import SqlReview.Resp

-- What is written is read back, and what is cut off is not read at all.
namespace SqlReview.Resp
open GoBytes GoText GoNumber ExactReader

-- A reply as a server writes it.
mutual
def Reply.write : Reply → Bytes
  | .status s => byte '+' :: s ++ crlf
  | .error s => byte '-' :: s ++ crlf
  | .integer n => byte ':' :: itoa n.toInt ++ crlf
  | .bulk p => writeBytes p
  | .null => str "$-1" ++ crlf
  | .array items => writeLen (byte '*') items.length ++ writeItems items

def writeItems : List Reply → Bytes
  | [] => []
  | item :: items => item.write ++ writeItems items
end

theorem writeItems_eq (items : List Reply) : writeItems items = items.flatMap Reply.write := by
  induction items with
  | nil => rfl
  | cons item items ih => rw [writeItems,ih,List.flatMap_cons]

-- A length is an int for which make has room.
structure Counts (room : Option Nat) (size n : Nat) : Prop where
  small : n < 2^63
  made : room.all (size*n ≤ ·) = true

-- What can be read in a process with `room`: a line holds no newline.
inductive FitsIn (room : Option Nat) : Reply → Prop where
  | status : byte '\n' ∉ s → FitsIn room (.status s)
  | error : byte '\n' ∉ s → FitsIn room (.error s)
  | integer : FitsIn room (.integer n)
  | bulk : Counts room 1 p.length → FitsIn room (.bulk p)
  | null : FitsIn room .null
  | array : Counts room 16 replies.length → (∀ r ∈ replies,FitsIn room r) → FitsIn room (.array replies)

def Fits (r : Reply) : Prop := FitsIn (some maxAlloc) r

section Numbers
theorem writeDigits_eq (n : Nat) (scratch : Bytes) : writeDigits n scratch = digits n ++ scratch := by
  have last (d : Nat) (small : d < 10) : UInt8.ofNat ((byte '0').toNat+d) = byte d.digitChar := by
    have cases : d = 0 ∨ d = 1 ∨ d = 2 ∨ d = 3 ∨ d = 4 ∨ d = 5 ∨ d = 6 ∨ d = 7 ∨ d = 8 ∨ d = 9 := by omega
    rcases cases with rfl | rfl | rfl | rfl | rfl | rfl | rfl | rfl | rfl | rfl <;> rfl
  induction n using Nat.strong_induction_on generalizing scratch with
  | _ n ih =>
    rw [writeDigits,last _ (by omega)]
    split
    · have small : n%10 = n := by omega
      rw [digits_small (by omega),small]
      rfl
    · rw [ih (n/10) (by omega),digits_large (n := n) (by omega),List.append_assoc]
      rfl

theorem decimal_line {s : Bytes} (decimal : Decimal s) : byte '\n' ∉ s :=
  fun member => absurd (decimal _ member) (by decide)

theorem itoa_line (i : Int) : byte '\n' ∉ itoa i := by
  have line := decimal_line (digits_read i.natAbs).1
  unfold itoa
  split
  · exact List.not_mem_cons_of_ne_of_not_mem (by decide) line
  · exact line

theorem accumulate_decimal {s : Bytes} (decimal : Decimal s) (n : Nat) :
    accumulate (Int64.ofNat n) s = .ok (Int64.ofNat (value n s)) := by
  induction s generalizing n with
  | nil => rfl
  | cons b s ih =>
    obtain ⟨first,later⟩ := List.forall_mem_cons.mp decimal
    obtain ⟨d,found⟩ := Option.isSome_iff_exists.mp first
    have step : Int64.ofNat n*10+Int64.ofNat d = Int64.ofNat (n*10+d) := by
      rw [Int64.ofNat_add,Int64.ofNat_mul]
      rfl
    have shown : value n (b :: s) = value (n*10+d) s := by
      rw [(digit_some found).1]
      rfl
    rw [accumulate,found]
    dsimp only
    rw [step,ih later,shown]

theorem accumulate_digits (n : Nat) : accumulate 0 (digits n) = .ok (Int64.ofNat n) := by
  obtain ⟨decimal,same⟩ := digits_read n
  have read := accumulate_decimal decimal 0
  rwa [same] at read

theorem parseLen_digits (n : Nat) : parseLen (digits n) = .ok (Int64.ofNat n) := by
  obtain ⟨b,rest,shown,minus⟩ := digits_head n
  have other : digits n ≠ [byte '-',byte '1'] := by
    rw [shown]
    rintro same
    exact minus (List.cons.inj same).1
  rw [parseLen,if_neg (digits_some n),if_neg other,accumulate_digits]

-- The least number has no opposite: it wraps around twice.
theorem parseInt_itoa64 (n : Int64) : parseInt (itoa n.toInt) = .ok n := by
  unfold itoa
  split
  · rename_i negative
    have back : -Int64.ofNat n.toInt.natAbs = n := by
      rw [Int64.neg_ofNat,show -(n.toInt.natAbs : Int) = n.toInt by omega,Int64.ofInt_toInt]
    rw [parseInt,if_pos rfl,if_neg (digits_some _),accumulate_digits]
    exact congrArg Except.ok back
  · rename_i positive
    have back : Int64.ofNat n.toInt.natAbs = n := by
      rw [← Int64.ofInt_eq_ofNat,show (n.toInt.natAbs : Int) = n.toInt by omega,Int64.ofInt_toInt]
    obtain ⟨b,rest,shown,minus⟩ := digits_head n.toInt.natAbs
    rw [shown,parseInt,if_neg minus,← shown,accumulate_digits,back]
end Numbers

theorem readSlice_found (new : delim ∉ s) (rest : Bytes) :
    readSlice delim (s ++ delim :: rest) = some (s ++ [delim],rest) := by
  induction s with
  | nil => rw [List.nil_append,readSlice,if_pos rfl,List.nil_append]
  | cons b s ih =>
    have other : b ≠ delim := fun same => new (same ▸ List.mem_cons_self)
    rw [List.cons_append,readSlice,if_neg other,ih fun member => new (List.mem_cons_of_mem _ member)]
    rfl

theorem readSlice_none (new : delim ∉ s) : readSlice delim s = none := by
  induction s with
  | nil => rfl
  | cons b s ih =>
    have other : b ≠ delim := fun same => new (same ▸ List.mem_cons_self)
    rw [readSlice,if_neg other,ih fun member => new (List.mem_cons_of_mem _ member)]
    rfl

theorem exact_readLine (plain : byte '\n' ∉ line) : Exact .eof readLine (line ++ crlf) line := by
  have inside : byte '\n' ∉ line ++ [byte '\r'] := by
    simp only [List.mem_append,List.mem_singleton,not_or]
    exact ⟨plain,by decide⟩
  constructor
  · intro rest
    have sliced := readSlice_found inside rest
    have shape : line ++ crlf ++ rest = line ++ [byte '\r'] ++ byte '\n' :: rest := by simp [crlf]
    rw [shape,readLine,sliced]
    simp
  · intro front back split some_
    -- All that is missing is behind the last byte before the newline.
    obtain ⟨before,last,rfl⟩ : ∃ before last,back = before ++ [last] :=
      ⟨_,_,(List.dropLast_append_getLast some_).symm⟩
    have shape : front ++ before ++ [last] = line ++ [byte '\r'] ++ [byte '\n'] := by
      rw [List.append_assoc,split]
      simp [crlf]
    have same := (List.append_inj' shape rfl).1
    have outside : byte '\n' ∉ front := fun member => inside (same ▸ List.mem_append_left _ member)
    rw [readLine,readSlice_none outside]

section
variable {room : Option Nat}

-- A reply starts with its line.
theorem exact_line (plain : byte '\n' ∉ line) (body : Exact .eof (replyOf room (readReplyIn room) line) w r) :
    Exact .eof (readReplyIn room) (line ++ crlf ++ w) r := by
  have both := (exact_readLine plain).bind body
  exact ⟨fun rest => (readReply_eq room _).trans (both.whole rest),
    fun front back split some_ => (readReply_eq room _).trans (both.cut front back split some_)⟩

theorem exact_last (plain : byte '\n' ∉ line) (body : replyOf room (readReplyIn room) line = pure r) :
    Exact .eof (readReplyIn room) (line ++ crlf) r := by
  have ends : Exact .eof (replyOf room (readReplyIn room) line) [] r := by
    rw [body]
    exact .pure r
  have whole := exact_line plain ends
  rwa [List.append_nil] at whole

theorem Counts.length (counts : Counts room size n) :
    ¬ Int64.ofNat n < 0 ∧ (Int64.ofNat n).toInt.toNat = n ∧ make room size (Int64.ofNat n) = pure () := by
  have same : (Int64.ofNat n).toInt = n := Int64.toInt_ofNat_of_lt counts.small
  have back : (Int64.ofNat n).toInt.toNat = n := by rw [same]; rfl
  refine ⟨?_,back,?_⟩
  · rw [Int64.lt_iff_toInt_lt,same]
    exact not_lt.mpr (Int.natCast_nonneg n)
  · rw [make,back,if_pos counts.made]

theorem exact_bulk (p : Bytes) (counts : Counts room 1 p.length) :
    Exact .eof (readReplyIn room) (writeBytes p) (.bulk p) := by
  obtain ⟨positive,same,made⟩ := counts.length
  have text : writeBytes p = byte '$' :: digits p.length ++ crlf ++ (p ++ crlf) := by
    rw [writeBytes,writeLen,writeDigits_eq]
    simp
  have plain : byte '\n' ∉ byte '$' :: digits p.length :=
    List.not_mem_cons_of_ne_of_not_mem (by decide) (decimal_line (digits_read _).1)
  have body : replyOf room (readReplyIn room) (byte '$' :: digits p.length) =
      readBulk room (Int64.ofNat p.length) := by
    simp only [replyOf,parseLen_digits]
    rfl
  rw [text]
  refine exact_line plain ?_
  rw [body,readBulk,if_neg positive,same,made,pure_bind]
  have line : Exact .eof readLine crlf [] := exact_readLine (List.not_mem_nil)
  have tail : Exact .eof (readLine >>= fun line => if line ≠ [] then fail "bad bulk string format"
    else return Reply.bulk p)
      (crlf ++ []) (.bulk p) := line.bind (.pure _)
  rw [List.append_nil] at tail
  exact (exact_readFull p).bind tail

theorem exact_reply (fits : FitsIn room r) : Exact .eof (readReplyIn room) r.write r := by
  induction fits with
  | status plain => exact exact_last (List.not_mem_cons_of_ne_of_not_mem (by decide) plain) rfl
  | error plain => exact exact_last (List.not_mem_cons_of_ne_of_not_mem (by decide) plain) rfl
  | @integer n =>
    refine exact_last (List.not_mem_cons_of_ne_of_not_mem (by decide) (itoa_line _)) ?_
    simp only [replyOf,parseInt_itoa64]
    rfl
  | bulk counts => exact exact_bulk _ counts
  | null =>
    have plain : byte '\n' ∉ str "$-1" := by decide
    exact exact_last plain rfl
  | @array replies counts _ ih =>
    obtain ⟨positive,same,made⟩ := counts.length
    have text : (Reply.array replies).write = byte '*' :: digits replies.length ++ crlf ++
        replies.flatMap Reply.write := by
      rw [Reply.write,writeItems_eq,writeLen,writeDigits_eq]
      simp
    have plain : byte '\n' ∉ byte '*' :: digits replies.length :=
      List.not_mem_cons_of_ne_of_not_mem (by decide) (decimal_line (digits_read _).1)
    have body : replyOf room (readReplyIn room) (byte '*' :: digits replies.length) =
        (items (readReplyIn room) replies.length >>= fun r => return .array r) := by
      simp only [replyOf,parseLen_digits,readArray,if_neg positive,same,made]
      rfl
    have whole : Exact .eof (items (readReplyIn room) replies.length >>= fun r => return Reply.array r)
        (replies.flatMap Reply.write ++ []) (.array replies) := (exact_items Reply.write ih).bind (.pure _)
    rw [List.append_nil] at whole
    rw [text]
    refine exact_line plain ?_
    rw [body]
    exact whole
end

-- Replies that come one after the other, as they do behind a pipeline.
theorem replies_delimited {replies : List Reply} (fits : ∀ r ∈ replies,Fits r) :
    (∀ rest,items readReply replies.length (replies.flatMap Reply.write ++ rest) = .ok (replies,rest)) ∧
    ∀ front back,front ++ back = replies.flatMap Reply.write → back ≠ [] →
      items readReply replies.length front = .error .eof :=
  have exact_ := exact_items Reply.write fun r member => exact_reply (fits r member)
  ⟨exact_.whole,exact_.cut⟩

-- An error, the least number and an array within an array.
def samples : List Reply :=
  [.error (str "NOSCRIPT x"),.integer (-9223372036854775808),.array [.bulk (str "a\r\nb"),.null,.array []]]

theorem samples_fit : ∀ r ∈ samples,Fits r := by
  have none : Fits (.array []) := .array ⟨by decide,by decide⟩ (List.forall_mem_nil _)
  have text : Fits (.bulk (str "a\r\nb")) := .bulk ⟨by decide,by decide⟩
  have inner : ∀ r ∈ [Reply.bulk (str "a\r\nb"),.null,.array []],Fits r := by
    simp only [List.forall_mem_cons]
    exact ⟨text,.null,none,List.forall_mem_nil _⟩
  simp only [samples,List.forall_mem_cons]
  exact ⟨.error (by decide),.integer,.array ⟨by decide,by decide⟩ inner,List.forall_mem_nil _⟩

theorem samples_delimited : (∀ r ∈ samples,Fits r) ∧
    (∀ rest,items readReply samples.length (samples.flatMap Reply.write ++ rest) = .ok (samples,rest)) ∧
    ∀ front back,front ++ back = samples.flatMap Reply.write → back ≠ [] →
      items readReply samples.length front = .error .eof :=
  ⟨samples_fit,replies_delimited samples_fit⟩

-- A length that no reply which fits can have.
example : readReply (str "$9223372036854775807\r\n") = .error .makeslice := by rfl

-- The text of an argument.
def Arg.text (argumentTypeOK : Bool) : Arg → Bytes
  | .string s => s
  | .bytes p => p
  | .int n => itoa n.toInt
  | .float64 printed => printed
  | .bool b => if b then str "1" else str "0"
  | .nil => []
  | .argument redisArg printed => if argumentTypeOK then redisArg.text false else printed
  | .other printed => printed

theorem writeArg_text (ok : Bool) (arg : Arg) : writeArg ok arg = writeBytes (arg.text ok) := by
  induction arg generalizing ok with
  | bool b => cases b <;> rfl
  | argument redisArg printed ih =>
    cases ok with
    | true => exact ih false
    | false => rfl
  | _ => rfl

-- A command as the other side sees it.
def commandOf (cmd : Bytes) (args : List Arg) : List Bytes := cmd :: args.map (Arg.text true)

def request (words : List Bytes) : Reply := .array (words.map .bulk)

theorem writeCommand_request (cmd : Bytes) (args : List Arg) :
    writeCommand cmd args = (request (commandOf cmd args)).write := by
  have rest : args.flatMap (writeArg true) =
      (args.map fun arg => Reply.bulk (arg.text true)).flatMap Reply.write := by
    rw [List.flatMap_map]
    exact List.flatMap_congr fun arg _ => (writeArg_text true arg).trans (by rw [Reply.write])
  rw [writeCommand,rest,request,Reply.write,writeItems_eq,commandOf]
  simp [Reply.write,Nat.add_comm,List.map_map,Function.comp_def]

def Sized (words : List Bytes) : Prop := words.length < 2^63 ∧ ∀ word ∈ words,word.length < 2^63

theorem request_fits (sized : Sized words) : FitsIn none (request words) := by
  refine .array ⟨by rw [List.length_map]; exact sized.1,rfl⟩ fun item member => ?_
  obtain ⟨word,inside,rfl⟩ := List.mem_map.mp member
  exact .bulk ⟨sized.2 word inside,rfl⟩

-- Whatever bytes the arguments hold, commands are read as the words they were made of, each one as many
-- words as it was given.
theorem commands_delimited {commands : List (Bytes × List Arg)}
    (sized : ∀ c ∈ commands,Sized (commandOf c.1 c.2)) :
    (∀ rest,items readRequest commands.length (commands.flatMap (fun c => writeCommand c.1 c.2) ++ rest) =
      .ok (commands.map (fun c => request (commandOf c.1 c.2)),rest)) ∧
    ∀ front back,front ++ back = commands.flatMap (fun c => writeCommand c.1 c.2) → back ≠ [] →
      items readRequest commands.length front = .error .eof := by
  have fits : ∀ r ∈ commands.map (fun c => request (commandOf c.1 c.2)),FitsIn none r := by
    intro r member
    obtain ⟨c,inside,rfl⟩ := List.mem_map.mp member
    exact request_fits (sized c inside)
  have same : commands.flatMap (fun c => writeCommand c.1 c.2) =
      (commands.map fun c => request (commandOf c.1 c.2)).flatMap Reply.write := by
    rw [List.flatMap_map]
    exact List.flatMap_congr fun c _ => writeCommand_request c.1 c.2
  have exact_ := exact_items Reply.write fun r member => exact_reply (fits r member)
  rw [List.length_map,← same] at exact_
  exact ⟨exact_.whole,exact_.cut⟩

-- An argument that looks like a command.
def injected : List (Bytes × List Arg) :=
  [(str "GET",[.string (str "k\r\n*1\r\n$8\r\nFLUSHALL\r\n")]),(str "SET",[.int (-1),.bool true])]

theorem injected_sized : ∀ c ∈ injected,Sized (commandOf c.1 c.2) := by
  simp only [injected,List.forall_mem_cons,Sized,commandOf]
  decide

theorem injected_delimited : (∀ c ∈ injected,Sized (commandOf c.1 c.2)) ∧
    (∀ rest,items readRequest injected.length (injected.flatMap (fun c => writeCommand c.1 c.2) ++ rest) =
      .ok (injected.map (fun c => request (commandOf c.1 c.2)),rest)) ∧
    ∀ front back,front ++ back = injected.flatMap (fun c => writeCommand c.1 c.2) → back ≠ [] →
      items readRequest injected.length front = .error .eof :=
  ⟨injected_sized,commands_delimited injected_sized⟩

end SqlReview.Resp
