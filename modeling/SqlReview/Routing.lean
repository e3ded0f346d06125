import SqlReview.GoText

namespace SqlReview.Routing
open GoText

-- Strings of the configuration are only compared, so τ is any type of strings.
variable {τ : Type}

-- MysqlConfType
structure Connection (τ : Type) where
  mysqlHost : τ
  mysqlDb : τ
  mysqlUser : τ
  mysqlPw : τ
  mysqlCharset : τ
  mysqlPort : Int64
  mysqlMaxOpenConns : Int64
  mysqlMaxIdleConns : Int64
  deriving DecidableEq

def Connection.zero (empty : τ) : Connection τ := ⟨empty,empty,empty,empty,empty,0,0,0⟩

-- A database alias and the eight fields <alias>_Mysql...
structure Database (τ : Type) where
  name : τ
  connection : Connection τ

structure AppConfig (τ : Type) where
  redisHost : τ
  redisPort : Int64
  redisPw : τ
  redisDb : Int64
  redisMaxActive : Int64
  redisMaxIdle : Int64
  redisIdleTimeOut : Int64
  redisquename : τ
  redisSampling : Int64
  mysql : Connection τ
  kafkaHost : τ
  kafkaPort : Int64
  kafkaTopic : τ
  kafkaChan : Int64
  kafkaThreadNum : Int64
  branchActive : Int64
  timerActive : Int64
  curlUrl : τ
  curlHost : τ
  serverLog : τ
  listenHost : τ
  listenPort : Int64
  soarTestDsnHost : τ
  soarTestDsnPort : Int64
  soarTestDsnDb : τ
  soarTestDsnUser : τ
  soarTestDsnPw : τ
  soarOnlineDsnHost : τ
  soarOnlineDsnPort : Int64
  soarOnlineDsnDb : τ
  soarOnlineDsnUser : τ
  soarOnlineDsnPw : τ
  explainDBTimer : Int64
  explainDBNumber : Int64
  comjia : Database τ
  esf : Database τ
  bbs : Database τ
  dsp : Database τ

-- What reflection shows of a field: its name and its value.
inductive FieldValue (τ : Type) where
  | string (value : τ)
  | int (value : Int64)
  deriving DecidableEq

abbrev Field (τ : Type) := Text × FieldValue τ

def Connection.fields (front : Text) (c : Connection τ) : List (Field τ) := [
  (front ++ text "MysqlHost",.string c.mysqlHost),
  (front ++ text "MysqlDb",.string c.mysqlDb),
  (front ++ text "MysqlUser",.string c.mysqlUser),
  (front ++ text "MysqlPw",.string c.mysqlPw),
  (front ++ text "MysqlCharset",.string c.mysqlCharset),
  (front ++ text "MysqlPort",.int c.mysqlPort),
  (front ++ text "MysqlMaxOpenConns",.int c.mysqlMaxOpenConns),
  (front ++ text "MysqlMaxIdleConns",.int c.mysqlMaxIdleConns)]

inductive Alias where
  | comjia | esf | bbs | dsp
  deriving DecidableEq

def Alias.name : Alias → Text
  | .comjia => text "Comjia"
  | .esf => text "Esf"
  | .bbs => text "Bbs"
  | .dsp => text "Dsp"

def AppConfig.at (config : AppConfig τ) : Alias → Database τ
  | .comjia => config.comjia
  | .esf => config.esf
  | .bbs => config.bbs
  | .dsp => config.dsp

-- The fields of one database, the alias at the place where it is declared.
def AppConfig.block (config : AppConfig τ) (chosen : Alias) (place : Nat) : List (Field τ) :=
  let fields := (config.at chosen).connection.fields (chosen.name ++ text "_")
  fields.take place ++ (chosen.name,.string (config.at chosen).name) :: fields.drop place

def AppConfig.redisFields (config : AppConfig τ) : List (Field τ) := [
  (text "RedisHost",.string config.redisHost),
  (text "RedisPort",.int config.redisPort),
  (text "RedisPw",.string config.redisPw),
  (text "RedisDb",.int config.redisDb),
  (text "RedisMaxActive",.int config.redisMaxActive),
  (text "RedisMaxIdle",.int config.redisMaxIdle),
  (text "RedisIdleTimeOut",.int config.redisIdleTimeOut),
  (text "Redisquename",.string config.redisquename),
  (text "RedisSampling",.int config.redisSampling)]

def AppConfig.serviceFields (config : AppConfig τ) : List (Field τ) := [
  (text "KafkaHost",.string config.kafkaHost),
  (text "KafkaPort",.int config.kafkaPort),
  (text "KafkaTopic",.string config.kafkaTopic),
  (text "KafkaChan",.int config.kafkaChan),
  (text "KafkaThreadNum",.int config.kafkaThreadNum),
  (text "BranchActive",.int config.branchActive),
  (text "TimerActive",.int config.timerActive),
  (text "CurlUrl",.string config.curlUrl),
  (text "CurlHost",.string config.curlHost),
  (text "ServerLog",.string config.serverLog),
  (text "ListenHost",.string config.listenHost),
  (text "ListenPort",.int config.listenPort),
  (text "SoarTestDsnHost",.string config.soarTestDsnHost),
  (text "SoarTestDsnPort",.int config.soarTestDsnPort),
  (text "SoarTestDsnDb",.string config.soarTestDsnDb),
  (text "SoarTestDsnUser",.string config.soarTestDsnUser),
  (text "SoarTestDsnPw",.string config.soarTestDsnPw),
  (text "SoarOnlineDsnHost",.string config.soarOnlineDsnHost),
  (text "SoarOnlineDsnPort",.int config.soarOnlineDsnPort),
  (text "SoarOnlineDsnDb",.string config.soarOnlineDsnDb),
  (text "SoarOnlineDsnUser",.string config.soarOnlineDsnUser),
  (text "SoarOnlineDsnPw",.string config.soarOnlineDsnPw),
  (text "ExplainDBTimer",.int config.explainDBTimer),
  (text "ExplainDBNumber",.int config.explainDBNumber)]

-- The fields of AppConfig in the order of their declaration.
def AppConfig.fields (config : AppConfig τ) : List (Field τ) :=
  config.redisFields ++ config.mysql.fields [] ++ config.serviceFields ++
    config.block .comjia 2 ++ config.block .esf 0 ++ config.block .bbs 0 ++ config.block .dsp 0

-- The scan for the alias: the name of the last string field with the value db.
def dbUpon [DecidableEq τ] (db : τ) (fields : List (Field τ)) : Text :=
  fields.foldl (fun upon field => if field.2 = .string db then field.1 else upon) []

-- k.Interface().(string) and k.Interface().(int); none is the panic of a failed assertion.
def FieldValue.string? : FieldValue τ → Option τ
  | .string value => some value
  | .int _ => none

def FieldValue.int? : FieldValue τ → Option Int64
  | .string _ => none
  | .int value => some value

-- The switch of the second scan.
def pick (upon : Text) (c : Connection τ) (field : Field τ) : Option (Connection τ) :=
  if field.1 = upon ++ text "_MysqlHost" then field.2.string?.map fun value => {c with mysqlHost := value}
  else if field.1 = upon ++ text "_MysqlDb" then field.2.string?.map fun value => {c with mysqlDb := value}
  else if field.1 = upon ++ text "_MysqlUser" then field.2.string?.map fun value =>
    {c with mysqlUser := value}
  else if field.1 = upon ++ text "_MysqlPw" then field.2.string?.map fun value => {c with mysqlPw := value}
  else if field.1 = upon ++ text "_MysqlCharset" then field.2.string?.map fun value =>
    {c with mysqlCharset := value}
  else if field.1 = upon ++ text "_MysqlPort" then field.2.int?.map fun value => {c with mysqlPort := value}
  else if field.1 = upon ++ text "_MysqlMaxOpenConns" then field.2.int?.map fun value =>
    {c with mysqlMaxOpenConns := value}
  else if field.1 = upon ++ text "_MysqlMaxIdleConns" then field.2.int?.map fun value =>
    {c with mysqlMaxIdleConns := value}
  else some c

def settings (empty : τ) (upon : Text) (fields : List (Field τ)) : Option (Connection τ) :=
  fields.foldlM (pick upon) (.zero empty)

-- The MysqlConfType that ExcuteDbSql passes to InitMySQLPool for a result with this Db.
def mysqlClientConfig [DecidableEq τ] (empty : τ) (config : AppConfig τ) (db : τ) : Option (Connection τ) :=
  settings empty (dbUpon db config.fields) config.fields

-- The fields declared after the alias itself.
def AppConfig.after (config : AppConfig τ) (chosen : Alias) : List (Field τ) :=
  (config.fields.dropWhile fun field => field.1 ≠ chosen.name).tail

theorem fields_split (config : AppConfig τ) (chosen : Alias) : config.fields =
    config.fields.takeWhile (fun field => field.1 ≠ chosen.name) ++
      (chosen.name,.string (config.at chosen).name) :: config.after chosen := by
  have own : config.fields.dropWhile (fun field => field.1 ≠ chosen.name) =
      (chosen.name,.string (config.at chosen).name) :: config.after chosen := by
    cases chosen <;> rfl
  rw [← own,List.takeWhile_append_dropWhile]

-- The names do not depend on the values.
def blank : AppConfig Unit :=
  ⟨(),0,(),0,0,0,0,(),0,.zero (),(),0,(),0,0,0,0,(),(),(),(),0,(),0,(),(),(),(),0,(),(),(),0,0,
    ⟨(),.zero ()⟩,⟨(),.zero ()⟩,⟨(),.zero ()⟩,⟨(),.zero ()⟩⟩

def fieldNames : List Text := blank.fields.map Prod.fst

def aliasNames : List Text := [Alias.comjia,.esf,.bbs,.dsp].map Alias.name

def suffixes : List Text := [
  text "_MysqlHost",text "_MysqlDb",text "_MysqlUser",text "_MysqlPw",text "_MysqlCharset",text "_MysqlPort",
  text "_MysqlMaxOpenConns",text "_MysqlMaxIdleConns"]

theorem fields_names (config : AppConfig τ) : config.fields.map Prod.fst = fieldNames := by
  simp only [fieldNames,AppConfig.fields,AppConfig.redisFields,AppConfig.serviceFields,
    AppConfig.block,Connection.fields,List.map_append,List.map_take,List.map_drop,
    List.map_cons,List.map_nil]

theorem names_nodup (config : AppConfig τ) : (config.fields.map Prod.fst).Nodup := by
  rw [fields_names]
  decide +kernel

theorem fields_named {config : AppConfig τ} (member : field ∈ config.fields) : field.1 ∈ fieldNames := by
  rw [← fields_names config]
  exact List.mem_map_of_mem member

theorem underscored_names : fieldNames.all (fun name =>
    name.count '_' == 0 ||
      (name.count '_' == 1 && aliasNames.contains (name.takeWhile (· ≠ '_')))) = true := by
  decide +kernel

theorem suffixes_underscore : suffixes.all (fun suffix => suffix.head? == some '_') = true := by decide

-- Only an alias is followed by _Mysql... in another name.
theorem suffixed_alias (listed : suffix ∈ suffixes) (named : upon ++ suffix ∈ fieldNames) :
    upon ∈ aliasNames := by
  obtain ⟨rest,rfl⟩ : ∃ rest,suffix = '_' :: rest := by
    have head := List.all_eq_true.mp suffixes_underscore suffix listed
    cases suffix with
    | nil => cases head
    | cons c rest => exact ⟨rest,by simpa using head⟩
  have once := List.all_eq_true.mp underscored_names _ named
  rw [List.count_append,List.count_cons_self] at once
  rcases Bool.or_eq_true _ _ ▸ once with none | one
  · have : List.count '_' upon + (List.count '_' rest + 1) = 0 := eq_of_beq none
    omega
  · obtain ⟨count,alias_⟩ := Bool.and_eq_true _ _ ▸ one
    have count : List.count '_' upon + (List.count '_' rest + 1) = 1 := eq_of_beq count
    have free : '_' ∉ upon := List.count_eq_zero.mp (by omega)
    rw [List.takeWhile_append_of_pos (fun c member => by
      simp only [ne_eq,decide_eq_true_eq]
      rintro rfl
      exact free member)] at alias_
    simpa using alias_

theorem alias_name (member : name ∈ aliasNames) : ∃ other : Alias,other.name = name := by
  obtain ⟨other,_,same⟩ := List.mem_map.mp member
  exact ⟨other,same⟩

theorem settings_alias (empty : τ) (config : AppConfig τ) (chosen : Alias) :
    settings empty chosen.name config.fields = some (config.at chosen).connection := by
  cases chosen <;> rfl

theorem pick_other (upon : Text) (c : Connection τ) (field : Field τ)
    (other : ∀ suffix ∈ suffixes,field.1 ≠ upon ++ suffix) :
    pick upon c field = some c := by
  simp only [suffixes,List.forall_mem_cons] at other
  simp only [pick,other,if_false]

theorem settings_other (empty : τ) (upon : Text) (fields : List (Field τ))
    (other : ∀ field ∈ fields,∀ suffix ∈ suffixes,field.1 ≠ upon ++ suffix) :
    settings empty upon fields = some (.zero empty) := by
  unfold settings
  induction fields with
  | nil => rfl
  | cons field fields ih =>
    obtain ⟨first,later⟩ := List.forall_mem_cons.mp other
    rw [List.foldlM_cons,pick_other upon _ field first]
    exact ih later

section
variable [DecidableEq τ]

theorem dbUpon_snoc (db : τ) (fields : List (Field τ)) (field : Field τ) :
    dbUpon db (fields ++ [field]) = if field.2 = .string db then field.1 else dbUpon db fields := by
  simp [dbUpon]

-- Fields without the value do not change what the scan has found before them.
theorem dbUpon_keeps (db : τ) (before : List (Field τ)) {after : List (Field τ)}
    (none : ∀ field ∈ after,field.2 ≠ .string db) : dbUpon db (before ++ after) = dbUpon db before := by
  induction after using List.reverseRecOn with
  | nil => rw [List.append_nil]
  | append_singleton after field ih =>
    rw [← List.append_assoc,dbUpon_snoc,if_neg (none field (by simp))]
    exact ih fun other member => none other (List.mem_append_left _ member)

theorem dbUpon_found (db : τ) (before : List (Field τ)) {after : List (Field τ)}
    (found : ∃ field ∈ after,field.2 = .string db) :
    ∃ field ∈ after,field.2 = .string db ∧ dbUpon db (before ++ after) = field.1 := by
  induction after using List.reverseRecOn with
  | nil =>
    obtain ⟨field,member,_⟩ := found
    cases member
  | append_singleton after last ih =>
    rw [← List.append_assoc,dbUpon_snoc]
    by_cases same : last.2 = .string db
    · exact ⟨last,by simp,same,if_pos same⟩
    · rw [if_neg same]
      obtain ⟨field,member,value⟩ := found
      rcases List.mem_append.mp member with inside | own
      · obtain ⟨field,member,value,upon⟩ := ih ⟨field,inside,value⟩
        exact ⟨field,List.mem_append_left _ member,value,upon⟩
      · cases List.mem_singleton.mp own
        contradiction

-- A field behind the alias that redirects the scan leaves no connection at all.
theorem redirected_empty (empty : τ) (config : AppConfig τ) (db : τ) (chosen : Alias)
    (only : ∀ other,(config.at other).name = db → other = chosen)
    (redirects : ∃ field ∈ config.after chosen,field.2 = .string db) :
    mysqlClientConfig empty config db = some (.zero empty) := by
  have split := fields_split config chosen
  obtain ⟨field,member,value,upon⟩ := dbUpon_found db
    (config.fields.takeWhile (fun field => field.1 ≠ chosen.name) ++
      [(chosen.name,.string (config.at chosen).name)]) redirects
  rw [List.append_assoc,List.singleton_append,← split] at upon
  have inside : field ∈ config.fields := by
    rw [split]
    exact List.mem_append_right _ (List.mem_cons_of_mem _ member)
  have notAlias : field.1 ∉ aliasNames := by
    intro isAlias
    obtain ⟨other,name⟩ := alias_name isAlias
    have own : (other.name,FieldValue.string (config.at other).name) ∈ config.fields := by
      rw [fields_split config other]
      exact List.mem_append_right _ List.mem_cons_self
    have same := List.inj_on_of_nodup_map (names_nodup config) inside own name.symm
    subst same
    cases only other (FieldValue.string.inj value)
    -- The alias itself is declared once.
    have distinct := names_nodup config
    rw [split,List.map_append,List.map_cons] at distinct
    have once := (List.nodup_cons.mp (List.nodup_append.mp distinct).2.1).1
    exact once (List.mem_map_of_mem member)
  rw [mysqlClientConfig,upon]
  apply settings_other
  intro other member suffix listed same
  exact notAlias (suffixed_alias listed (same ▸ fields_named member))

theorem routed_alias (empty : τ) (config : AppConfig τ) (db : τ) (chosen : Alias)
    (own : (config.at chosen).name = db)
    (only : ∀ other,(config.at other).name = db → other = chosen) :
    mysqlClientConfig empty config db = some (config.at chosen).connection ↔
      (∀ field ∈ config.after chosen,field.2 ≠ .string db) ∨ (config.at chosen).connection = .zero empty := by
  by_cases redirects : ∃ field ∈ config.after chosen,field.2 = .string db
  · rw [redirected_empty empty config db chosen only redirects]
    constructor
    · intro same
      exact Or.inr (Option.some.inj same).symm
    · rintro (clear | same)
      · obtain ⟨field,member,value⟩ := redirects
        exact absurd value (clear field member)
      · rw [same]
  · have clear : ∀ field ∈ config.after chosen,field.2 ≠ .string db := by
      intro field member value
      exact redirects ⟨field,member,value⟩
    have upon : dbUpon db config.fields = chosen.name := by
      have split := fields_split config chosen
      rw [← List.singleton_append,← List.append_assoc] at split
      rw [split,dbUpon_keeps db _ clear,dbUpon_snoc,if_pos (congrArg FieldValue.string own)]
    rw [mysqlClientConfig,upon,settings_alias]
    exact iff_of_true rfl (Or.inl clear)
end

-- src/env/prod.conf; keys that are missing there read as zero values.
def prodConf : AppConfig Text where
  redisHost := text "127.57.29.36"
  redisPort := 6379
  redisPw := text "222"
  redisDb := 11
  redisMaxActive := 100
  redisMaxIdle := 100
  redisIdleTimeOut := 1000
  redisquename := text "julive"
  redisSampling := 0
  mysql := ⟨text "21.20.35.63",text "comjia",text "com",text "222",text "utf8",3306,100,100⟩
  kafkaHost := text "192.168.2.74"
  kafkaPort := 9092
  kafkaTopic := text "zqf"
  kafkaChan := 100000
  kafkaThreadNum := 100
  branchActive := 3
  timerActive := 20
  curlUrl := text "http://test3m.comjia.com/"
  curlHost := []
  serverLog := text "/mnt/hgfs/workspace1/julive/unique/logs/agent.log"
  listenHost := text "192.168.234.131"
  listenPort := 8090
  soarTestDsnHost := text "101.9960.35.63"
  soarTestDsnPort := 3306
  soarTestDsnDb := text "comj"
  soarTestDsnUser := text "comji"
  soarTestDsnPw := text "affd66"
  soarOnlineDsnHost := text "101.66.35.63"
  soarOnlineDsnPort := 3306
  soarOnlineDsnDb := text "comji"
  soarOnlineDsnUser := text "com"
  soarOnlineDsnPw := text "aff"
  explainDBTimer := 10
  explainDBNumber := 3
  comjia := ⟨text "comj",⟨text "101.60.35.63",text "comji",text "comj",text "444",text "utf8",3306,100,100⟩⟩
  esf := ⟨[],.zero []⟩
  bbs := ⟨[],.zero []⟩
  dsp := ⟨[],.zero []⟩

-- The same with the alias comjia, which MysqlDb holds as well, before the alias.
def renamedConf : AppConfig Text := {prodConf with comjia := {prodConf.comjia with name := text "comjia"}}

theorem renamed_alias_routed :
    mysqlClientConfig [] renamedConf (text "comjia") = some renamedConf.comjia.connection := by
  refine (routed_alias [] renamedConf (text "comjia") .comjia rfl ?_).mpr (Or.inl (by decide +kernel))
  intro other same
  cases other with
  | comjia => rfl
  | _ => cases same

-- With the alias comj of prod.conf the scan ends at Comjia_MysqlUser.
theorem prod_alias_redirected :
    prodConf.comjia.name = text "comj" ∧ (∀ other,(prodConf.at other).name = text "comj" → other = .comjia) ∧
    dbUpon (text "comj") prodConf.fields = text "Comjia_MysqlUser" ∧
    mysqlClientConfig [] prodConf (text "comj") = some (.zero []) ∧
    mysqlClientConfig [] prodConf (text "comj") ≠ some prodConf.comjia.connection := by
  refine ⟨rfl,?_,by decide +kernel,by decide +kernel,by decide +kernel⟩
  intro other same
  cases other with
  | comjia => rfl
  | _ => cases same

end SqlReview.Routing
