import PugLint.Text.Blank
import PugLint.Text.Bytes
import PugLint.Text.Search

/-!
# Components

A component file is a sequence of top-level blocks in markup. Of these the
template and the scripts are taken out, with their exact places in the file;
what stands in the blocks is not looked at. A template may hold templates, so
its end is found by counting them; any other block ends at the first closing
tag of its name.
-/

namespace PugLint

/-- The template block of a component. -/
structure TemplateBlock where
  /-- The text between the tags. -/
  content : String
  /-- The byte where that text starts. -/
  offset : Nat
  /-- The line on which that text starts. -/
  line : Nat
  /-- Whether the start tag has a `src` attribute. -/
  hasSource : Bool
  /-- The value of the `lang` attribute. -/
  lang : Option String
  /-- The range of the start tag. -/
  startTag : Nat × Nat
  /-- The range of the end tag. -/
  endTag : Nat × Nat
  deriving DecidableEq, Repr, Inhabited

/-- The block of a template that stands alone, without tags around it. -/
def TemplateBlock.bare (content : String) : TemplateBlock where
  content := content
  offset := 0
  line := 1
  hasSource := false
  lang := some "pug"
  startTag := (0, 0)
  endTag := (content.utf8ByteSize, content.utf8ByteSize)

/-- Whether a template is written in Pug, also under its former name. -/
def TemplateBlock.isPug (block : TemplateBlock) : Bool :=
  block.lang == some "pug" || block.lang == some "jade"

/-- Whether anything stands between the tags, be it blank. -/
def TemplateBlock.hasContent (block : TemplateBlock) : Bool :=
  !block.content.isEmpty

/-- A script block of a component. -/
structure ScriptBlock where
  /-- The text between the tags. -/
  content : String
  /-- The byte where that text starts. -/
  offset : Nat
  /-- Whether the start tag has a `setup` attribute. -/
  setup : Bool
  /-- The value of the `lang` attribute. -/
  lang : Option String
  deriving DecidableEq, Repr, Inhabited

/-- The blocks of a component. -/
structure Component where
  /-- The first template, whatever its language. -/
  template : Option TemplateBlock
  /-- The scripts in their order. -/
  scripts : List ScriptBlock
  deriving DecidableEq, Repr, Inhabited

/-- The fault of a component: a block without its end, named in lower case,
    that was opened on a line. -/
structure UnterminatedBlock where
  /-- The name of the block. -/
  tag : String
  /-- The line of its start tag. -/
  line : Nat
  deriving DecidableEq, Repr

/-- The wording of the fault. -/
def UnterminatedBlock.message (fault : UnterminatedBlock) : String :=
  "<" ++ fault.tag ++ "> block opened on line " ++ toString fault.line ++ " is never closed"

namespace Component

/-- A text in lower case as far as ASCII goes. -/
def asciiLower (s : List Char) : List Char :=
  s.map Char.toLower

/-- Whether two names agree up to the case of ASCII letters. -/
def sameName (a b : List Char) : Bool :=
  asciiLower a == asciiLower b

/-! ### Tags -/

/-- The name of a start tag, right behind its less-than sign. -/
def tagName? (cs : List Char) : Option (List Char) :=
  let name := cs.takeWhile fun c => c.isAlphanum || c == '-'
  if name.head?.any Char.isAlpha then some name else none

/-- Takes a start tag up to its greater-than sign; those in quotes do not end
    it. -/
def scanTag (quote : Option Char) : List Char → Option (List Char × List Char)
  | [] => none
  | c :: cs =>
    let following (quote : Option Char) :=
      (scanTag quote cs).map fun (taken, rest) => (c :: taken, rest)
    match quote with
    | some q => following (if c == q then none else some q)
    | none =>
      if c == '"' || c == '\'' then following (some c)
      else if c == '>' then some ([c], cs)
      else following none

/-- The attributes of a start tag, in at most `fuel` steps. -/
def readAttributes : Nat → List Char → List (List Char × Option (List Char))
  | 0, _ => []
  | _, [] => []
  | fuel + 1, c :: cs =>
    if Text.isAsciiBlank c || c == '/' then readAttributes fuel cs
    else
      let isNameChar (c : Char) := !Text.isAsciiBlank c && c != '=' && c != '/'
      let name := (c :: cs).takeWhile isNameChar
      match ((c :: cs).dropWhile isNameChar).dropWhile Text.isAsciiBlank with
      | '=' :: rest =>
        match rest.dropWhile Text.isAsciiBlank with
        | q :: rest =>
          if q == '"' || q == '\'' then
            (name, some (rest.takeWhile (· != q))) ::
              readAttributes fuel ((rest.dropWhile (· != q)).drop 1)
          else
            (name, some ((q :: rest).takeWhile (!Text.isAsciiBlank ·))) ::
              readAttributes fuel ((q :: rest).dropWhile (!Text.isAsciiBlank ·))
        | [] => [(name, some [])]
      | rest =>
        if name.isEmpty then readAttributes fuel rest
        else (name, none) :: readAttributes fuel rest

/-- The first attribute of a name: `none` if it is missing, `some none` if it has
    no value. -/
def attribute? (attributes : List (List Char × Option (List Char))) (name : String) :
    Option (Option (List Char)) :=
  (attributes.find? fun (n, _) => sameName n name.toList).map Prod.snd

/-! ### Ends of blocks -/

/-- The text of a template up to its end tag, and the text from there on;
    `depth` counts the templates that are open, and at most `fuel` tags are
    read. -/
def splitTemplate : Nat → Nat → List Char → Option (List Char × List Char)
  | 0, _, _ => none
  | fuel + 1, depth, text =>
    let opening := "<template".toList
    let closing := "</template".toList
    match Text.splitBefore? closing text with
    | none => none
    | some (content, rest) =>
      -- A start tag in front of the end tag found opens one more level.
      let nested :=
        (Text.splitBefore? opening text).filter fun (before, _) =>
          before.length < content.length
      match nested with
      | some (before, inner) =>
        -- A start tag without its end takes the rest of the text.
        let (tag, behind) := (scanTag none inner).getD (inner, [])
        let depth := if Text.endsWith tag "/>".toList then depth else depth + 1
        (splitTemplate fuel depth behind).map fun (content, rest) =>
          (before ++ tag ++ content, rest)
      | none =>
        if depth ≤ 1 then some (content, rest)
        else
          (splitTemplate fuel (depth - 1) (rest.drop closing.length)).map
            fun (more, rest) => (content ++ closing ++ more, rest)

/-- The content of a block of a given name and the text from its end tag on. -/
def splitBlock (name text : List Char) : Option (List Char × List Char) :=
  if sameName name "template".toList then splitTemplate (text.length + 1) 1 text
  else Text.splitBefore? ("</".toList ++ name) text

/-! ### Blocks -/

/-- A place in a component file and the text from there on. -/
structure Cursor where
  /-- The byte reached. -/
  offset : Nat
  /-- The line reached. -/
  line : Nat
  /-- What is still to be read. -/
  rest : List Char

/-- The cursor behind a text that it stands in front of. -/
def Cursor.advance (cursor : Cursor) (taken rest : List Char) : Cursor :=
  ⟨cursor.offset + Text.byteLength taken, cursor.line + taken.count '\n', rest⟩

/-- Adds the block between a start tag and an end tag to a component: the
    cursors stand in front of the start tag, the content and the end tag, and
    behind the end tag. -/
def addBlock (component : Component) (name : List Char)
    (attributes : List (List Char × Option (List Char))) (content : List Char)
    (start inner closing behind : Cursor) : Component :=
  let lang := ((attribute? attributes "lang").join).map String.ofList
  let content := String.ofList content
  if sameName name "template".toList then
    if component.template.isSome then component
    else
      { component with
        template := some
          { content, lang, offset := inner.offset, line := inner.line
            hasSource := (attribute? attributes "src").isSome
            startTag := (start.offset, inner.offset)
            endTag := (closing.offset, behind.offset) } }
  else if sameName name "script".toList then
    { component with
      scripts := component.scripts ++
        [{ content, lang, offset := inner.offset
           setup := (attribute? attributes "setup").isSome }] }
  else component

/-- Reads the blocks behind a cursor into a component, in at most `fuel` steps. -/
def readBlocks : Nat → Component → Cursor → Except UnterminatedBlock Component
  | 0, component, _ => .ok component
  | fuel + 1, component, cursor =>
    match Text.splitBefore? ['<'] cursor.rest with
    | none => .ok component
    | some (before, text) =>
      let start := cursor.advance before text
      if "<!--".toList.isPrefixOf text then
        match Text.splitBefore? "-->".toList text with
        | some (comment, rest) =>
          readBlocks fuel component (start.advance (comment ++ rest.take 3) (rest.drop 3))
        | none => .ok component
      else
        -- What starts no tag, be it a stray end tag, is passed over.
        match tagName? (text.drop 1) with
        | none => readBlocks fuel component (start.advance ['<'] (text.drop 1))
        | some name =>
          let unterminated := UnterminatedBlock.mk (String.ofList (asciiLower name)) start.line
          match scanTag none text with
          | none => .error unterminated
          | some (tag, rest) =>
            let inner := start.advance tag rest
            if Text.endsWith tag "/>".toList then readBlocks fuel component inner
            else
              match splitBlock name rest with
              | none => .error unterminated
              | some (content, rest) =>
                let attributes :=
                  readAttributes tag.length ((tag.drop (name.length + 1)).dropLast)
                let closing := inner.advance content rest
                -- The end tag goes on to the next greater-than sign, whatever stands in it.
                let (endTag, rest) :=
                  match Text.splitBefore? ['>'] rest with
                  | some (endTag, rest) => (endTag ++ ['>'], rest.drop 1)
                  | none => (rest, [])
                let behind := closing.advance endTag rest
                readBlocks fuel
                  (addBlock component name attributes content start inner closing behind) behind

/-- The blocks of a component file. -/
def parse (source : String) : Except UnterminatedBlock Component :=
  let text := source.toList
  readBlocks (text.length + 1) ⟨none, []⟩ ⟨0, 1, text⟩

/-- The template of a component file, if it is written in Pug. -/
def pugTemplate (source : String) : Except UnterminatedBlock (Option TemplateBlock) :=
  (parse source).map fun component => component.template.filter TemplateBlock.isPug

end Component

end PugLint
