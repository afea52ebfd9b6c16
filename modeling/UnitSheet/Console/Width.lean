namespace UnitSheet.Console

/-- First and last code points of the runs that take two columns. -/
def wideRanges : List (Nat × Nat) :=
  [(4352, 4447), (8986, 8987), (9001, 9002), (9193, 9196), (9200, 9200), (9203, 9203), (9725, 9726),
   (9748, 9749), (9800, 9811), (9855, 9855), (9875, 9875), (9889, 9889), (9898, 9899), (9917, 9918),
   (9924, 9925), (9934, 9934), (9940, 9940), (9962, 9962), (9970, 9971), (9973, 9973), (9978, 9978),
   (9981, 9981), (9989, 9989), (9994, 9995), (10024, 10024), (10060, 10060), (10062, 10062),
   (10067, 10069), (10071, 10071), (10133, 10135), (10160, 10160), (10175, 10175), (11035, 11036),
   (11088, 11088), (11093, 11093), (11904, 12350), (12353, 12440), (12443, 19903), (19968, 42191),
   (43360, 43388), (44032, 55203), (63744, 64255), (65040, 65049), (65072, 65135), (65281, 65376),
   (65504, 65510), (94176, 101589), (110576, 111355), (126980, 126980), (127183, 127183),
   (127374, 127374), (127377, 127386), (127488, 127776), (127789, 127797), (127799, 127868),
   (127870, 127891), (127904, 127946), (127951, 127955), (127968, 127984), (127988, 127988),
   (127992, 128062), (128064, 128064), (128066, 128252), (128255, 128317), (128331, 128334),
   (128336, 128359), (128378, 128378), (128405, 128406), (128420, 128420), (128507, 128591),
   (128640, 128709), (128716, 128716), (128720, 128722), (128725, 128727), (128733, 128735),
   (128747, 128748), (128756, 128764), (128992, 129003), (129008, 129008), (129292, 129338),
   (129340, 129349), (129351, 129535), (129648, 129782), (131072, 262141)]

/-- First and last code points of the runs that take no column of their own. -/
def markRanges : List (Nat × Nat) :=
  [(0, 31), (127, 159), (768, 879), (1155, 1161), (6832, 6862), (7616, 7679), (8203, 8207),
   (8232, 8238), (8288, 8291), (8400, 8432), (12441, 12442), (65024, 65039), (65056, 65071),
   (917760, 917999)]

def columns (c : Char) : Nat :=
  let within (ranges : List (Nat × Nat)) : Bool :=
    ranges.any fun (first, last) => first ≤ c.toNat && c.toNat ≤ last
  if within markRanges then 0 else if within wideRanges then 2 else 1

def width (text : String) : Nat := text.toList.foldl (fun n c => n + columns c) 0

def blanks (n : Nat) : String := "".pushn ' ' n

def tabStop : Nat := 8

/-- Fills each tab with blanks up to the next tab stop; `column` is where the rest begins. -/
def expandFrom (column : Nat) : List Char → List Char
  | [] => []
  | '\t' :: cs =>
    let n := tabStop - column % tabStop
    List.replicate n ' ' ++ expandFrom (column + n) cs
  | c :: cs => c :: expandFrom (column + columns c) cs

def expandTabs (line : String) : String := String.ofList (expandFrom 0 line.toList)

/-- The lines of a text as a console shows them. -/
def shownLines (text : String) : List String := (text.splitOn "\n").map expandTabs

end UnitSheet.Console
