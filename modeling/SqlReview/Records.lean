import SqlReview.GoText

namespace SqlReview.Records
open GoText

structure Traces where
  file : Text
  line : Int64
  function : Text
  class_ : Text
  type : Text
  deriving DecidableEq

structure SqlInfo where
  info : Text
  trace : List Traces
  route : Text
  branch : Text
  dsn : Text
  deriving DecidableEq

structure Explains where
  id : UInt64
  selectType : Text
  table : Text
  type : Text
  possibleKeys : Text
  key : Text
  keyLen : Text
  ref : Text
  rows : UInt64
  extra : Text
  deriving DecidableEq

structure ExplainsResult where
  expl : Text
  arr : List SqlInfo
  explain : List Explains
  lastQueryCost : Text
  level : Text
  score : Int64
  content : Text
  branch : Text
  db : Text
  route : Text
  deriving DecidableEq

-- The string fields of a record, those of nested records included.
def Traces.texts (x : Traces) : List Text := [x.file,x.function,x.class_,x.type]

def SqlInfo.texts (x : SqlInfo) : List Text :=
  [x.info] ++ x.trace.flatMap Traces.texts ++ [x.route,x.branch,x.dsn]

def Explains.texts (x : Explains) : List Text :=
  [x.selectType,x.table,x.type,x.possibleKeys,x.key,x.keyLen,x.ref,x.extra]

def ExplainsResult.texts (x : ExplainsResult) : List Text :=
  [x.expl] ++ x.arr.flatMap SqlInfo.texts ++ x.explain.flatMap Explains.texts ++
    [x.lastQueryCost,x.level,x.content,x.branch,x.db,x.route]

end SqlReview.Records
