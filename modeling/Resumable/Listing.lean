import Resumable.Fault
import Resumable.Origin

/-!
# Listings

Program text that is written piece by piece. Pieces gather on the current line until a statement
ends; then the line is attributed to a line of the source text. Attribution counts lines: while
the next source line is at most three lines ahead, blank lines make up for the difference, and
otherwise a line directive is written.
-/

namespace Resumable

def licence : List String := [
  "This program is free software; you can redistribute it and/or modify",
  "it under the terms of the GNU General Public License version 2 as",
  "published by the Free Software Foundation.",
  "",
  "This program is distributed in the hope that it will be useful,",
  "but WITHOUT ANY WARRANTY; without even the implied warranty of",
  "MERCHANTABILITY or FITNESS FOR A PARTICULAR PURPOSE.  See the",
  "GNU General Public License for more details.",
  "",
  "You should have received a copy of the GNU General Public License along",
  "with this program; if not, write to the Free Software Foundation, Inc.,",
  "51 Franklin Street, Fifth Floor, Boston, MA 02110-1301 USA",
  ""]

def stars : String := String.ofList (List.replicate 76 '*')

def banner : List String :=
  ["/*" ++ stars, "    Copyright (C) 2015 OLogN Technologies AG", "    "] ++
    licence.map ("    " ++ ·) ++ [stars ++ "*/"]

/-- A program text that is being written. -/
structure Listing where
  file : String
  lines : List String := banner ++ [""]
  current : String := ""
  /-- The source line that the next line is attributed to, or zero. -/
  line : Int := 0
deriving Repr, DecidableEq, Inhabited

namespace Listing

def write (l : Listing) (piece : String) : Listing := { l with current := l.current ++ piece }

def push (l : Listing) (text : String) : Listing :=
  { l with lines := l.lines ++ [text], line := l.line + 1 }

/-- Adds a line of its own. The current line must be empty. -/
def writeLine (l : Listing) (text : Option String) : Except Fault Listing :=
  if l.current ≠ "" then .error .unfinishedLine
  else
    match text with
    | none => .error .missingLine
    | some text => .ok (l.push text)

/-- Makes the next line count as a line of the source text. -/
def moveTo (l : Listing) (target : Int) : Listing :=
  if l.line ≠ 0 ∧ target = l.line then l
  else if l.line ≠ 0 ∧ l.line < target ∧ target < l.line + 4 then
    { l with
      lines := l.lines ++ List.replicate (target - l.line).toNat "",
      line := target }
  else
    { l with
      lines := l.lines ++ [s!"#line {target} \"" ++ l.file ++ "\""],
      line := target }

/-- Ends a statement that comes from some place: the current line, if there is one, is finished
and attributed to the first or the last line of the place. -/
def endStatement (l : Listing) (origin : Origin) (useFirst : Bool) : Listing :=
  if l.current = "" then l
  else
    let l :=
      match origin.lines? with
      | some (first, last) => l.moveTo (if useFirst then first else last)
      | none => l
    { l.push l.current with current := "" }

def text (l : Listing) : Except Fault String :=
  if l.current ≠ "" then .error .unfinishedLine
  else .ok (String.join (l.lines.map (· ++ "\n")))

end Listing

end Resumable
