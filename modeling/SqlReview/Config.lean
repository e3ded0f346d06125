import SqlReview.GoSpace

-- Config.parse and the file format it reads.
namespace SqlReview.Config
open GoBytes GoSpace

abbrev Data := Bytes → Option Bytes

def newline : UInt8 := byte '\n'

def parseLine (m : Data) (line : Bytes) : Data :=
  match trimSpace line with
  | [] => m
  | first :: rest =>
    if first = newline ∨ first = byte '+' ∨ first = byte ';' then m
    else match (first :: rest).splitOn (byte '=') with
      | [] => m
      | name :: values =>
        if trimSpace name = [] then m
        else match values with
          | [] => Function.update m (trimSpace name) (some [])
          | value :: _ => Function.update m (trimSpace name) (some (trimSpace value))

-- reader.ReadString('\n') until io.EOF; what stands behind the last newline comes with it and is dropped.
def readLines (line : Bytes) : Bytes → List Bytes
  | [] => []
  | b :: rest => if b = newline then (line ++ [b]) :: readLines [] rest else readLines (line ++ [b]) rest

-- A file as the reader delivers it: its bytes, and whether they end in an error other than io.EOF.
structure File where
  bytes : Bytes
  broken : Bool

-- The map and whether an error is returned; `none` is a file that cannot be opened.
def parse : Option File → Data × Bool
  | none => (fun _ => none,true)
  | some file => ((readLines [] file.bytes).foldl parseLine fun _ => none,file.broken)

-- The lines that may stand in a file.
inductive Line where
  | binding (key value : Bytes)
  | blank (space : Bytes)
  | comment (text : Bytes)

def Line.text : Line → Bytes
  | .binding key value => key ++ (str " = " ++ value)
  | .blank space => space
  | .comment text => byte ';' :: text

structure Key (key : Bytes) : Prop where
  some_ : key ≠ []
  trimmed : trimSpace key = key
  plain : byte '=' ∉ key
  first : key.head? ≠ some (byte '+') ∧ key.head? ≠ some (byte ';')

def Line.Valid (line : Line) : Prop :=
  newline ∉ line.text ∧ match line with
    | .binding key value => Key key ∧ trimSpace value = value
    | .blank space => trimSpace space = []
    | .comment _ => True

-- One line after the other, the last with or without a newline.
def fileText (lines : List Line) (terminated : Bool) : Bytes :=
  if terminated then lines.flatMap fun line => line.text ++ [newline]
  else (lines.dropLast.flatMap fun line => line.text ++ [newline]) ++ (lines.getLast?.map Line.text).getD []

def Line.bind (m : Data) : Line → Data
  | .binding key value => Function.update m key (some value)
  | _ => m

-- The map that sends each key to the value of its last binding.
def lastBindings (lines : List Line) : Data := lines.foldl Line.bind fun _ => none

theorem readLines_line (line rest : Bytes) (plain : newline ∉ text) :
    readLines line (text ++ newline :: rest) = (line ++ text ++ [newline]) :: readLines [] rest := by
  induction text generalizing line with
  | nil => rw [List.nil_append,readLines,if_pos rfl,List.append_nil]
  | cons b text ih =>
    rw [List.mem_cons,not_or] at plain
    rw [List.cons_append,readLines,if_neg (Ne.symm plain.1),ih _ plain.2,List.append_assoc line]
    rfl

theorem readLines_rest (line : Bytes) (plain : newline ∉ text) : readLines line text = [] := by
  induction text generalizing line with
  | nil => rfl
  | cons b text ih =>
    rw [List.mem_cons,not_or] at plain
    rw [readLines,if_neg (Ne.symm plain.1),ih _ plain.2]

theorem readLines_lines (lines : List Line) (valid : ∀ line ∈ lines,line.Valid) (plain : newline ∉ rest) :
    readLines [] ((lines.flatMap fun line => line.text ++ [newline]) ++ rest) =
      lines.map fun line => line.text ++ [newline] := by
  induction lines with
  | nil => exact readLines_rest [] plain
  | cons line lines ih =>
    obtain ⟨here,later⟩ := List.forall_mem_cons.mp valid
    rw [List.flatMap_cons,List.append_assoc,List.append_assoc,List.singleton_append,
      readLines_line [] _ here.1,ih later,List.map_cons]
    rfl

theorem newline_blank : GoSpace.blank [newline] := by
  intro piece mem
  rw [runes_cons_ascii (by decide),runes_nil] at mem
  cases List.mem_singleton.mp mem
  decide

theorem space_blank : GoSpace.blank [byte ' '] := by
  intro piece mem
  rw [runes_cons_ascii (by decide),runes_nil] at mem
  cases List.mem_singleton.mp mem
  decide

theorem trim_line (text : Bytes) : trimSpace (text ++ [newline]) = trimSpace text :=
  trimSpace_right text newline_blank fun c first => by cases first; decide

-- What is left of a value: the text in front of its first equals sign.
def cut (value : Bytes) : Bytes := trimSpace (value.takeWhile (· ≠ byte '='))

theorem splitOn_head (sep : UInt8) (s : Bytes) : ∃ rest,s.splitOn sep = s.takeWhile (· ≠ sep) :: rest := by
  induction s with
  | nil => exact ⟨[],List.splitOn_nil sep⟩
  | cons b s ih =>
    obtain ⟨rest,split⟩ := ih
    by_cases same : b = sep
    · refine ⟨s.splitOn sep,?_⟩
      rw [List.splitOn_cons_eq_if_modifyHead,if_pos (by simpa using same),
        List.takeWhile_cons_of_neg (by simpa using same)]
    · refine ⟨rest,?_⟩
      rw [List.splitOn_cons_eq_if_modifyHead,if_neg (by simpa using same),split,
        List.takeWhile_cons_of_pos (by simpa using same)]
      rfl

theorem trimSpace_head {b : UInt8} (ascii : b.toNat < 0x80) (ink : isSpaceRune b.toNat = false)
    (text : Bytes) :
    ∃ rest,trimSpace (b :: text) = b :: rest := by
  have front : (runes (b :: text)).dropWhile spaced = (b.toNat,[b]) :: runes text := by
    rw [runes_cons_ascii ascii]
    exact List.dropWhile_cons_of_neg (by rw [spaced,ink]; exact Bool.false_ne_true)
  rw [trimSpace,trimPieces,front]
  obtain ⟨trail,whole⟩ := List.rdropWhile_prefix spaced ((b.toNat,[b]) :: runes text)
  cases inner : List.rdropWhile spaced ((b.toNat,[b]) :: runes text) with
  | nil =>
    have space := List.rdropWhile_eq_nil_iff.mp inner _ List.mem_cons_self
    rw [spaced,ink] at space
    cases space
  | cons first rest =>
    rw [inner] at whole
    cases (List.cons.inj whole).1
    exact ⟨joined rest,rfl⟩

theorem parseLine_blank (m : Data) (empty : trimSpace space = []) : parseLine m (space ++ [newline]) = m := by
  rw [parseLine,trim_line,empty]

theorem parseLine_comment (m : Data) (text : Bytes) : parseLine m (byte ';' :: text ++ [newline]) = m := by
  obtain ⟨rest,start⟩ := trimSpace_head (b := byte ';') (by decide) (by decide) text
  rw [parseLine,trim_line,start]
  exact if_pos (.inr (.inr rfl))

theorem space_head {t : Bytes} : ∀ c ∈ (byte ' ' :: t).head?,c.toNat < 0x80 := by
  intro c first
  cases first
  decide

-- The line of a binding, trimmed: the space behind the sign goes with an empty value.
theorem trim_binding (valid : Key key) (trimmed : trimSpace value = value) :
    ∃ rest,trimSpace (key ++ (str " = " ++ value)) = (key ++ [byte ' ']) ++ byte '=' :: rest ∧
      trimSpace (rest.takeWhile (· ≠ byte '=')) = cut value := by
  have bare := (trimSpace_self_iff key).mp valid.trimmed
  have spaces : str " = " = [byte ' ',byte '=',byte ' '] := by decide
  have space : ∀ b ∈ [byte ' '],b.toNat < 0x80 := List.forall_mem_singleton.mpr (by decide)
  cases value with
  | nil =>
    refine ⟨[],?_,rfl⟩
    have sign : Bare (runes [byte '=']) := by
      rw [runes_cons_ascii (by decide),runes_nil]
      exact ⟨by decide,by decide⟩
    have inner := trimSpace_between key [byte ' '] [byte '='] (runes_append_head key space_head)
      (runes_text_append space _) bare sign valid.some_ (List.cons_ne_nil _ _)
    have ends : key ++ (str " = " ++ []) = (key ++ ([byte ' '] ++ [byte '='])) ++ [byte ' '] := by
      simp [spaces]
    rw [ends,trimSpace_right _ space_blank space_head,inner]
    simp
  | cons b value =>
    refine ⟨byte ' ' :: b :: value,?_,?_⟩
    · have inner :=
        trimSpace_between key (str " = ") (b :: value)
          (by rw [spaces]; exact runes_append_head key space_head)
        (runes_text_append (by decide +kernel) _) bare
          ((trimSpace_self_iff _).mp trimmed) valid.some_ (List.cons_ne_nil _ _)
      rw [inner,spaces]
      simp
    · rw [List.takeWhile_cons_of_pos (by decide)]
      exact trimSpace_left _ space_blank space

theorem parseLine_binding (m : Data) (valid : Key key) (plain : newline ∉ key)
    (trimmed : trimSpace value = value) :
    parseLine m (key ++ (str " = " ++ value) ++ [newline]) = Function.update m key (some (cut value)) := by
  obtain ⟨rest,trim,left⟩ := trim_binding valid trimmed
  obtain ⟨more,split⟩ := splitOn_head (byte '=') rest
  have noSign : byte '=' ∉ key ++ [byte ' '] := by
    rw [List.mem_append,not_or]
    exact ⟨valid.plain,by decide⟩
  have name : trimSpace (key ++ [byte ' ']) = key :=
    (trimSpace_right key space_blank space_head).trans valid.trimmed
  cases whole : key with
  | nil => exact absurd whole valid.some_
  | cons first tail =>
    rw [whole] at trim plain noSign name
    have start : ¬ (first = newline ∨ first = byte '+' ∨ first = byte ';') := by
      rintro (same | same | same)
      · exact plain (by rw [same]; exact List.mem_cons_self)
      · exact valid.first.1 (by rw [whole,same]; rfl)
      · exact valid.first.2 (by rw [whole,same]; rfl)
    rw [parseLine,trim_line,trim]
    dsimp only [List.cons_append]
    rw [if_neg start]
    have parts := List.splitOn_append_cons_self_of_not_mem noSign rest
    dsimp only [List.cons_append] at parts name
    rw [parts,split]
    dsimp only
    rw [name,if_neg (List.cons_ne_nil _ _),left]

-- What the program binds: the cut value.
def Line.read (m : Data) : Line → Data
  | .binding key value => Function.update m key (some (cut value))
  | _ => m

theorem parseLine_read (m : Data) (line : Line) (valid : line.Valid) :
    parseLine m (line.text ++ [newline]) = line.read m := by
  obtain ⟨plain,shape⟩ := valid
  cases line with
  | binding key value =>
    apply parseLine_binding m shape.1 _ shape.2
    intro mem
    exact plain (List.mem_append_left _ mem)
  | blank space => exact parseLine_blank m shape
  | comment text => exact parseLine_comment m text

-- The lines that end in a newline.
def complete (lines : List Line) (terminated : Bool) : List Line :=
  if terminated then lines else lines.dropLast

theorem complete_subset (lines : List Line) (terminated : Bool) :
    ∀ line ∈ complete lines terminated,line ∈ lines := by
  intro line mem
  cases terminated with
  | true => exact mem
  | false => exact List.mem_of_mem_dropLast mem

theorem parse_file (lines : List Line) (terminated : Bool) (valid : ∀ line ∈ lines,line.Valid) :
    parse (some ⟨fileText lines terminated,false⟩) =
      ((complete lines terminated).foldl Line.read fun _ => none,false) := by
  have split : ∃ rest,fileText lines terminated =
      ((complete lines terminated).flatMap fun line => line.text ++ [newline]) ++ rest ∧ newline ∉ rest := by
    cases terminated with
    | true => exact ⟨[],(List.append_nil _).symm,List.not_mem_nil⟩
    | false =>
      refine ⟨_,rfl,?_⟩
      cases last : lines.getLast? with
      | none => exact List.not_mem_nil
      | some line => exact (valid line (List.mem_of_getLast? last)).1
  obtain ⟨rest,whole,plain⟩ := split
  have here : ∀ line ∈ complete lines terminated,line.Valid :=
    fun line mem => valid line (complete_subset lines terminated line mem)
  rw [parse,whole,readLines_lines _ here plain,List.foldl_map]
  congr 1
  apply List.foldl_ext
  intro m line mem
  exact parseLine_read m line (here line mem)

theorem reads (lines : List Line) : lines.foldl Line.read (fun _ => none) = fun key =>
    (lastBindings lines key).map cut := by
  unfold lastBindings
  have same (m : Data) : lines.foldl Line.read (fun key => (m key).map cut) = fun key =>
      (lines.foldl Line.bind m key).map cut := by
    induction lines generalizing m with
    | nil => rfl
    | cons line lines ih =>
      have one : Line.read (fun key => (m key).map cut) line = fun key => (Line.bind m line key).map cut := by
        cases line with
        | binding key value =>
          funext other
          by_cases here : other = key
          · rw [here,Line.read,Line.bind,Function.update_self,Function.update_self]
            rfl
          · rw [Line.read,Line.bind,Function.update_of_ne here,Function.update_of_ne here]
        | _ => rfl
      rw [List.foldl_cons,List.foldl_cons,one,ih]
  exact same fun _ => none

theorem cut_self_iff (trimmed : trimSpace value = value) : cut value = value ↔ byte '=' ∉ value := by
  constructor
  · intro same mem
    have short := trimSpace_length (value.takeWhile (· ≠ byte '='))
    have prefix_ := List.takeWhile_prefix (fun b => decide (b ≠ byte '=')) (l := value)
    rw [← cut,same] at short
    have whole := List.takeWhile_eq_self_iff.mp (prefix_.eq_of_length_le short)
    exact of_decide_eq_true (whole _ mem) rfl
  · intro plain
    rw [cut,List.takeWhile_eq_self_iff.mpr,trimmed]
    intro b here
    simpa using fun sign : b = byte '=' => plain (sign ▸ here)

-- No value that is in force holds an equals sign, and a binding without a newline repeats what its
-- key already reads as.
structure Faithful (lines : List Line) (terminated : Bool) : Prop where
  values : ∀ key value,lastBindings (complete lines terminated) key = some value →
    lastBindings lines key = some value → byte '=' ∉ value
  last : terminated = false → ∀ key value,lines.getLast? = some (.binding key value) →
    ∃ earlier,lastBindings lines.dropLast key = some earlier ∧ cut earlier = value

theorem lastBindings_concat (lines : List Line) (line : Line) :
    lastBindings (lines ++ [line]) = line.bind (lastBindings lines) := by
  rw [lastBindings,List.foldl_append]
  rfl

theorem lastBindings_mem {lines : List Line} (bound : lastBindings lines key = some value) :
    Line.binding key value ∈ lines := by
  induction lines using List.reverseRecOn with
  | nil => cases bound
  | append_singleton lines line ih =>
    rw [lastBindings_concat] at bound
    cases line with
    | binding other last =>
      by_cases here : key = other
      · rw [Line.bind,here,Function.update_self] at bound
        cases Option.some.inj bound
        rw [here]
        exact List.mem_append_right _ List.mem_cons_self
      · rw [Line.bind,Function.update_of_ne here] at bound
        exact List.mem_append_left _ (ih bound)
    | _ => exact List.mem_append_left _ (ih bound)

-- Only the key of a last binding without a newline can read differently from the complete lines.
theorem lastBindings_complete (lines : List Line) (terminated : Bool) (key : Bytes) :
    lastBindings lines key = lastBindings (complete lines terminated) key ∨
      ∃ value,terminated = false ∧ lines.getLast? = some (.binding key value) ∧
      lastBindings lines key = some value := by
  cases terminated with
  | true => exact .inl rfl
  | false =>
    induction lines using List.reverseRecOn with
    | nil => exact .inl rfl
    | append_singleton lines line ih =>
      rw [complete,if_neg Bool.false_ne_true,List.dropLast_concat,lastBindings_concat,List.getLast?_concat]
      cases line with
      | binding other value =>
        by_cases here : key = other
        · rw [here,Line.bind,Function.update_self]
          exact .inr ⟨value,rfl,rfl,rfl⟩
        · rw [Line.bind,Function.update_of_ne here]
          exact .inl rfl
      | _ => exact .inl rfl

theorem config_round_trip_iff (lines : List Line) (terminated : Bool) (valid : ∀ line ∈ lines,line.Valid) :
    parse (some ⟨fileText lines terminated,false⟩) = (lastBindings lines,false) ↔
      Faithful lines terminated := by
  have trimmed {key value : Bytes} (bound : lastBindings lines key = some value) : trimSpace value = value :=
    (valid _ (lastBindings_mem bound)).2.2
  rw [parse_file lines terminated valid,reads,Prod.mk.injEq,and_iff_left rfl]
  constructor
  · intro same
    have read (key : Bytes) : (lastBindings (complete lines terminated) key).map cut =
        lastBindings lines key :=
      congrFun same key
    refine ⟨?_,?_⟩
    · intro key value here whole
      have one := read key
      rw [here,whole] at one
      exact (cut_self_iff (trimmed whole)).mp (Option.some.inj one)
    · rintro rfl key value last
      have whole : lastBindings lines key = some value := by
        rw [← List.dropLast_append_getLast? _ last,lastBindings_concat,Line.bind,Function.update_self]
      have one := read key
      rw [whole] at one
      exact Option.map_eq_some_iff.mp one
  · intro faithful
    funext key
    rcases lastBindings_complete lines terminated key with same | ⟨value,rfl,last,whole⟩
    · rw [← same]
      cases bound : lastBindings lines key with
      | none => rfl
      | some value =>
        have plain := faithful.values key value (same ▸ bound) bound
        exact congrArg some ((cut_self_iff (trimmed bound)).mpr plain)
    · obtain ⟨earlier,here,left⟩ := faithful.last rfl key value last
      rw [whole,complete,if_neg Bool.false_ne_true,here,← left]
      rfl

theorem config_value_lost : (Line.binding (str "RedisPw") (str "a=b")).Valid ∧
    lastBindings [.binding (str "RedisPw") (str "a=b")] (str "RedisPw") = some (str "a=b") ∧
    (parse (some ⟨fileText [.binding (str "RedisPw") (str "a=b")] true,false⟩)).1 (str "RedisPw") =
      some (str "a") ∧
    (parse (some ⟨fileText [.binding (str "RedisPw") (str "a=b")] false,false⟩)).1 (str "RedisPw") = none :=
  ⟨⟨by decide +kernel,⟨by decide +kernel,by decide +kernel,by decide +kernel,by decide +kernel⟩,
    by decide +kernel⟩,
    by decide +kernel,by decide +kernel,by decide +kernel⟩

theorem config_line_read :
    (∀ line ∈ [Line.comment (str " redis"),.binding (str "RedisPort") (str "6379")],line.Valid) ∧
    parse (some ⟨fileText [.comment (str " redis"),.binding (str "RedisPort") (str "6379")] true,false⟩) =
      (lastBindings [.comment (str " redis"),.binding (str "RedisPort") (str "6379")],false) := by
  have valid : ∀ line ∈ [Line.comment (str " redis"),.binding (str "RedisPort") (str "6379")],line.Valid := by
    refine List.forall_mem_cons.mpr ⟨⟨by decide +kernel,trivial⟩,List.forall_mem_singleton.mpr ?_⟩
    exact ⟨by decide +kernel,⟨by decide +kernel,by decide +kernel,by decide +kernel,
      by decide +kernel⟩,by decide +kernel⟩
  refine ⟨valid,(config_round_trip_iff [.comment (str " redis"),
    .binding (str "RedisPort") (str "6379")] true valid).mpr ⟨?_,nofun⟩⟩
  intro key value _ bound
  have mem := lastBindings_mem bound
  rcases List.mem_cons.mp mem with same | mem
  · cases same
  · cases List.mem_singleton.mp mem
    decide +kernel

end SqlReview.Config
