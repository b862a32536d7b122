import Accessibility.Document.Basic
import Accessibility.Text.Ascii
import Accessibility.Text.Blank
import Accessibility.Text.Decimal

/-!
Roles of accessible nodes. The first recognised word of the `role` attribute decides; without one,
the native meaning of the element does.
-/

set_option autoImplicit false

namespace Accessibility

open Std

inductive Role where
  | unknown
  | document
  | textLeaf
  | «section»
  | paragraph
  | heading
  | button
  | checkBox
  | radioButton
  | radioGroup
  | textInput
  | textArea
  | label
  | link
  | image
  | comboBox
  | listBox
  | list
  | listItem
  | form
  | group
  | figure
  | caption
  | table
  | tableRow
  | tableCell
  | columnHeader
  | dialog
  | alert
  | tooltip
  | progressBar
  | meter
  | status
  | slider
  | separator
  | tabList
  | tab
  | tabPanel
  | menu
  | menuItem
deriving DecidableEq, Repr

namespace Role

def name : Role → String
  | unknown => "unknown"
  | document => "document"
  | textLeaf => "text"
  | «section» => "section"
  | paragraph => "paragraph"
  | heading => "heading"
  | button => "button"
  | checkBox => "checkbox"
  | radioButton => "radio"
  | radioGroup => "radiogroup"
  | textInput => "textbox"
  | textArea => "textarea"
  | label => "label"
  | link => "link"
  | image => "image"
  | comboBox => "combobox"
  | listBox => "listbox"
  | list => "list"
  | listItem => "listitem"
  | form => "form"
  | group => "group"
  | figure => "figure"
  | caption => "caption"
  | table => "table"
  | tableRow => "row"
  | tableCell => "cell"
  | columnHeader => "columnheader"
  | dialog => "dialog"
  | alert => "alert"
  | tooltip => "tooltip"
  | progressBar => "progressbar"
  | meter => "meter"
  | status => "status"
  | slider => "slider"
  | separator => "separator"
  | tabList => "tablist"
  | tab => "tab"
  | tabPanel => "tabpanel"
  | menu => "menu"
  | menuItem => "menuitem"

/-- The role that a word of the `role` attribute asks for, in any case of its letters. -/
def ofWord? (word : String) : Option Role :=
  match Text.lower word with
  | "alert" => some alert
  | "button" => some button
  | "checkbox" => some checkBox
  | "columnheader" => some columnHeader
  | "combobox" => some comboBox
  | "dialog" => some dialog
  | "figure" => some figure
  | "form" => some form
  | "group" => some group
  | "heading" => some heading
  | "img" | "image" => some image
  | "link" => some link
  | "list" => some list
  | "listbox" => some listBox
  | "listitem" => some listItem
  | "menu" => some menu
  | "menuitem" => some menuItem
  | "meter" => some meter
  | "paragraph" => some paragraph
  | "progressbar" => some progressBar
  | "radio" => some radioButton
  | "radiogroup" => some radioGroup
  | "row" => some tableRow
  | "cell" | "gridcell" => some tableCell
  | "separator" => some separator
  | "slider" => some slider
  | "status" => some status
  | "tab" => some tab
  | "tablist" => some tabList
  | "tabpanel" => some tabPanel
  | "table" | "grid" => some table
  | "textbox" => some textInput
  | "tooltip" => some tooltip
  | "generic" | "region" | "none" | "presentation" => some «section»
  | _ => none

/-- The role of an `input` element by its type. A type that is missing or not known means text. -/
def ofInputType (type : String) : Role :=
  match Text.lower type with
  | "radio" => radioButton
  | "checkbox" => checkBox
  | "button" | "submit" | "reset" | "image" => button
  | "range" => slider
  | "hidden" => unknown
  | _ => textInput

/-- Sizes are read up to 32 bits; a larger one counts as missing. -/
def sizeBound : Nat := 4294967296

/-- Whether a `select` element shows several options at once. -/
def showsSeveral (attributes : Attributes) : Bool :=
  attributes.contains "multiple"
    || (attributes["size"]?.bind fun size => Text.readBelow? sizeBound (Text.trim size)).any (1 < ·)

/-- The native role of an element. -/
def ofTag (attributes : Attributes) : (tag : String) → Role
  | "a" => if attributes.contains "href" then link else «section»
  | "button" => button
  | "input" => ofInputType (attributes.valueOrEmpty "type")
  | "select" => if showsSeveral attributes then listBox else comboBox
  | "textarea" => textArea
  | "label" => label
  | "img" => image
  | "form" => form
  | "fieldset" => group
  | "figure" => figure
  | "figcaption" => caption
  | "h1" | "h2" | "h3" | "h4" | "h5" | "h6" => heading
  | "ul" | "ol" => list
  | "li" => listItem
  | "p" => paragraph
  | "dialog" => dialog
  | "progress" => progressBar
  | "meter" => meter
  | "output" => status
  | "hr" => separator
  | "table" => table
  | "tr" => tableRow
  | "td" => tableCell
  | "th" => columnHeader
  | _ => «section»

/-- The role of a content node. -/
def ofContent (kind : Kind) (attributes : Attributes) : Role :=
  match kind with
  | .document => document
  | .text => textLeaf
  | .shadowRoot => unknown
  | .element tag =>
    ((Text.words (attributes.valueOrEmpty "role")).findSome? ofWord?).getD (ofTag attributes tag)

end Role

end Accessibility
