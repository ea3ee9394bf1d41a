import DiffLang.Graph.Store
import DiffLang.Term

/-!
# Instructions

Both machines run lists of instructions over a stack. An instruction remembers the node it
computes, which the debugger and the analyses show.
-/

namespace DiffLang

inductive Instruction where
  | push (v : Value)
  | fetch (key : Value)
  | dup (index : Int)
  | reduce (count : Int)
  | closure
  | store (target : Term)
  | reduceOnly (count : Int)
  | assemble (keys : List Value)
  | other (command : String) (args : List Value)

namespace Instruction

def command : Instruction → String
  | .push _ => "push"
  | .fetch _ => "fetch"
  | .dup _ => "dup"
  | .reduce _ => "reduce"
  | .closure => "closure"
  | .store _ => "store"
  | .reduceOnly _ => "reduce"
  | .assemble _ => "assemble"
  | .other c _ => c

def argTexts : Instruction → List String
  | .push v => [v.text]
  | .fetch k => [k.text]
  | .dup i => [toString i]
  | .reduce n => [toString n]
  | .closure => []
  | .store t => [t.text]
  | .reduceOnly n => [toString n, "False"]
  | .assemble ks => [(Value.tuple ks).text]
  | .other _ args => args.map Value.text

def text (i : Instruction) : String :=
  i.command ++ ":" ++ ", ".intercalate i.argTexts

end Instruction

inductive Focus where
  | nothing
  | term (t : Term)
  | node (n : Graph.NodeId)

structure Step where
  op : Instruction
  focus : Focus := .nothing

end DiffLang
