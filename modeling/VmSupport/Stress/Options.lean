import VmSupport.Heap.Settings
import VmSupport.Value.Text

namespace VmSupport.Stress

structure Options where
  heapSize : Nat := 64
  blockSize : Nat := 32
  iterations : Nat := 10000
  threads : Nat := 1
  depth : Nat := 16
  deriving DecidableEq, Inhabited

namespace Options

inductive Name
  | heapSize | blockSize | iterations | threads | depth
  deriving DecidableEq

def Name.ofText? : String → Option Name
  | "heap-size" => some .heapSize
  | "block-size" => some .blockSize
  | "iterations" => some .iterations
  | "threads" => some .threads
  | "depth" => some .depth
  | _ => none

def set (o : Options) : Name → Nat → Options
  | .heapSize, n => { o with heapSize := n }
  | .blockSize, n => { o with blockSize := n }
  | .iterations, n => { o with iterations := n }
  | .threads, n => { o with threads := n }
  | .depth, n => { o with depth := n }

def number? (text : List Char) : Option Nat :=
  let digits := match text with
    | '+' :: ds => ds
    | ds => ds
  (Literal.natural? digits).filter (· < 1 <<< 64)

def read (o : Options) (given : List Name) : List String → Option Options
  | [] => some o
  | word :: words =>
    match word.toList with
    | ['-', '-'] => if words.isEmpty then some o else none
    | '-' :: '-' :: body =>
      let name := body.takeWhile (· ≠ '=')
      match Name.ofText? (String.ofList name), body.dropWhile (· ≠ '='), words with
      | some name, '=' :: value, words =>
        if name ∈ given then none
        else (number? value).bind fun n => read (o.set name n) (name :: given) words
      | some name, _, value :: words =>
        if name ∈ given then none
        else (number? value.toList).bind fun n => read (o.set name n) (name :: given) words
      | _, _, _ => none
    | _ => none

def ofWords? (words : List String) : Option Options := read {} [] words

end Options

end VmSupport.Stress
