/-
Module: FlatLisp.Text.Cluster
Purpose: Cutting text into extended grapheme clusters, which are what a reader of the text takes for
  one character each.
Main exports: Cluster.Joining, Cluster.Tail, Cluster.Tail.joins, Cluster.cut
-/
import FlatLisp.Text.ClusterBreak

namespace FlatLisp.Text.Cluster

/-- How far the text before a character has come towards being joined with it across a joiner or
linker: not at all; to the first character, with or without extenders; past the joiner or linker. -/
inductive Joining where
  | none
  | begun
  | joined
deriving DecidableEq, Repr, Inhabited

/-- What has to be known of the text before a character. -/
structure Tail where
  /-- The part of the last character. At the start of text this is as after a control. -/
  last : ClusterBreak := .control
  /-- Two pictographs are joined across one joiner, which may follow extenders. -/
  pictograph : Joining := .none
  /-- Two consonants are joined across extenders with a linker among them. -/
  conjunct : Joining := .none
  /-- An odd number of regional characters ends the text, the last of which is not paired yet. -/
  unpaired : Bool := false
deriving DecidableEq, Repr, Inhabited

namespace Tail

/-- What is known after one more character. -/
def after (t : Tail) (c : ClusterBreak) : Tail where
  last := c
  pictograph :=
    match c, t.pictograph with
    | .pictograph, _ => .begun
    | .extender, .begun | .linker, .begun | .nonJoiner, .begun => .begun
    | .joiner, .begun => .joined
    | _, _ => .none
  conjunct :=
    match c, t.conjunct with
    | .consonant, _ => .begun
    | .linker, .begun => .joined
    | .linker, before | .extender, before | .joiner, before => before
    | _, _ => .none
  unpaired := c == .regional && !t.unpaired

/-- Two parts of Hangul that are in one syllable. -/
def inSyllable : ClusterBreak → ClusterBreak → Bool
  | .leading, .leading | .leading, .vowel => true
  | .leading, .openSyllable | .leading, .closedSyllable => true
  | .openSyllable, .vowel | .openSyllable, .trailing | .vowel, .vowel | .vowel, .trailing => true
  | .closedSyllable, .trailing | .trailing, .trailing => true
  | _, _ => false

/-- The next character is in the same cluster as the last one. -/
def joins (t : Tail) (c : ClusterBreak) : Bool :=
  if t.last.isControl || c.isControl then t.last == .carriageReturn && c == .lineFeed
  else
    c.isMark || t.last == .prepended || inSyllable t.last c ||
      (c == .consonant && t.conjunct == .joined) ||
      (c == .pictograph && t.pictograph == .joined) ||
      (c == .regional && t.unpaired)

end Tail

/-- The clusters of a text that goes on with the given characters. The first cluster is already
open; its characters are given latest first. -/
def cutFrom (t : Tail) (opened : List Char) : List Char → List (List Char)
  | [] => [opened.reverse]
  | c :: rest =>
      let part := ClusterBreak.ofChar c
      if t.joins part then cutFrom (t.after part) (c :: opened) rest
      else opened.reverse :: cutFrom (t.after part) [c] rest

/-- The clusters of a text. -/
def cut : List Char → List (List Char)
  | [] => []
  | c :: rest => cutFrom (({} : Tail).after (ClusterBreak.ofChar c)) [c] rest

end FlatLisp.Text.Cluster
