/-!
# Elements and attributes of markup languages

The names that HTML, SVG and MathML give to elements, the SVG attributes whose
spelling is fixed, and the reserved words of scripts. A name is looked up as it
is written: `Button` is no element of HTML but the name of a component.
-/

namespace PugLint.Markup

/-- The elements of HTML. -/
def htmlElements : List String :=
  ["html", "body", "base", "head", "link", "meta", "style", "title", "address", "article",
   "aside", "footer", "header", "h1", "h2", "h3", "h4", "h5", "h6", "hgroup", "nav",
   "section", "div", "dd", "dl", "dt", "figcaption", "figure", "hr", "img", "li", "main",
   "ol", "p", "pre", "ul", "a", "b", "abbr", "bdi", "bdo", "br", "cite", "code", "data",
   "dfn", "em", "i", "kbd", "mark", "q", "rp", "rt", "rtc", "ruby", "s", "samp", "small",
   "span", "strong", "sub", "sup", "time", "u", "var", "wbr", "area", "audio", "map",
   "track", "video", "embed", "object", "param", "source", "canvas", "script", "noscript",
   "del", "ins", "caption", "col", "colgroup", "table", "thead", "tbody", "tfoot", "td",
   "th", "tr", "button", "datalist", "fieldset", "form", "input", "label", "legend",
   "meter", "optgroup", "option", "output", "progress", "select", "textarea", "details",
   "dialog", "menu", "menuitem", "summary", "content", "element", "shadow", "template",
   "blockquote", "iframe", "noframes", "picture", "search", "slot", "portal"]

/-- The elements of SVG. -/
def svgElements : List String :=
  ["a", "animate", "animateMotion", "animateTransform", "circle", "clipPath", "defs",
   "desc", "discard", "ellipse", "feBlend", "feColorMatrix", "feComponentTransfer",
   "feComposite", "feConvolveMatrix", "feDiffuseLighting", "feDisplacementMap",
   "feDistantLight", "feDropShadow", "feFlood", "feFuncA", "feFuncB", "feFuncG", "feFuncR",
   "feGaussianBlur", "feImage", "feMerge", "feMergeNode", "feMorphology", "feOffset",
   "fePointLight", "feSpecularLighting", "feSpotLight", "feTile", "feTurbulence", "filter",
   "foreignObject", "g", "image", "line", "linearGradient", "marker", "mask", "metadata",
   "mpath", "path", "pattern", "polygon", "polyline", "radialGradient", "rect", "script",
   "set", "stop", "style", "svg", "switch", "symbol", "text", "textPath", "title", "tspan",
   "unknown", "use", "view"]

/-- The elements of MathML. -/
def mathElements : List String :=
  ["math", "maction", "annotation", "annotation-xml", "menclose", "merror", "mfenced",
   "mfrac", "mi", "mmultiscripts", "mn", "mo", "mover", "mpadded", "mphantom",
   "mprescripts", "mroot", "mrow", "ms", "semantics", "mspace", "msqrt", "mstyle", "msub",
   "msup", "msubsup", "mtable", "mtd", "mtext", "mtr", "munder", "munderover"]

/-- The SVG attributes that keep their spelling whatever the naming convention. -/
def fixedSvgAttributes : List String :=
  ["accent-height", "alignment-baseline", "arabic-form", "attributeName", "attributeType",
   "baseFrequency", "baseline-shift", "baseProfile", "calcMode", "cap-height",
   "clipPathUnits", "clip-path", "clip-rule", "color-interpolation",
   "color-interpolation-filters", "color-profile", "color-rendering", "contentScriptType",
   "contentStyleType", "diffuseConstant", "dominant-baseline", "edgeMode",
   "enable-background", "externalResourcesRequired", "fill-opacity", "fill-rule",
   "filterRes", "filterUnits", "flood-color", "flood-opacity", "font-family", "font-size",
   "font-size-adjust", "font-stretch", "font-style", "font-variant", "font-weight",
   "glyph-name", "glyph-orientation-horizontal", "glyph-orientation-vertical", "glyphRef",
   "gradientTransform", "gradientUnits", "horiz-adv-x", "horiz-origin-x", "image-rendering",
   "kernelMatrix", "kernelUnitLength", "keyPoints", "keySplines", "keyTimes",
   "lengthAdjust", "letter-spacing", "lighting-color", "limitingConeAngle", "marker-end",
   "marker-mid", "marker-start", "markerHeight", "markerUnits", "markerWidth",
   "maskContentUnits", "maskUnits", "numOctaves", "overline-position", "overline-thickness",
   "panose-1", "paint-order", "pathLength", "patternContentUnits", "patternTransform",
   "patternUnits", "pointer-events", "pointsAtX", "pointsAtY", "pointsAtZ", "preserveAlpha",
   "preserveAspectRatio", "primitiveUnits", "refX", "refY", "rendering-intent",
   "repeatCount", "repeatDur", "requiredExtensions", "requiredFeatures", "shape-rendering",
   "specularConstant", "specularExponent", "spreadMethod", "startOffset", "stdDeviation",
   "stitchTiles", "stop-color", "stop-opacity", "strikethrough-position",
   "strikethrough-thickness", "stroke-dasharray", "stroke-dashoffset", "stroke-linecap",
   "stroke-linejoin", "stroke-miterlimit", "stroke-opacity", "stroke-width", "surfaceScale",
   "systemLanguage", "tableValues", "targetX", "targetY", "text-anchor", "text-decoration",
   "text-rendering", "textLength", "underline-position", "underline-thickness",
   "unicode-bidi", "unicode-range", "units-per-em", "v-alphabetic", "v-hanging",
   "v-ideographic", "v-mathematical", "vector-effect", "vert-adv-y", "vert-origin-x",
   "vert-origin-y", "viewBox", "viewTarget", "word-spacing", "writing-mode", "x-height",
   "xChannelSelector", "yChannelSelector", "zoomAndPan"]

/-- The reserved words of scripts, none of which can be an event handler. -/
def reservedWords : List String :=
  ["await", "break", "case", "catch", "class", "const", "continue", "debugger", "default",
   "delete", "do", "else", "enum", "export", "extends", "false", "finally", "for",
   "function", "if", "implements", "import", "in", "instanceof", "interface", "let", "new",
   "null", "package", "private", "protected", "public", "return", "static", "super",
   "switch", "this", "throw", "true", "try", "typeof", "var", "void", "while", "with",
   "yield"]

/-- Whether a name is an element of HTML. -/
def isHtmlElement (name : String) : Bool := htmlElements.contains name

/-- Whether a name is an element of SVG. -/
def isSvgElement (name : String) : Bool := svgElements.contains name

/-- Whether a name is an element of MathML. -/
def isMathElement (name : String) : Bool := mathElements.contains name

/-- Whether a name is an element of any of the three languages. -/
def isKnownElement (name : String) : Bool :=
  isHtmlElement name || isSvgElement name || isMathElement name

/-- Whether a name is an SVG attribute of fixed spelling. -/
def isFixedSvgAttribute (name : String) : Bool := fixedSvgAttributes.contains name

/-- Whether a name is a reserved word of scripts. -/
def isReservedWord (name : String) : Bool := reservedWords.contains name

end PugLint.Markup
