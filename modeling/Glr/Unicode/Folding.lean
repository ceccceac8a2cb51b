import Glr.Unicode.CharSet

/-!
# Glr.Unicode.Folding

Simple case folding: characters that fold to the same one differ in case only.
-/

namespace Glr.Unicode

/-! ## Data

Simple case folding and the characters that mappings of case change.  Four
hexadecimal numbers tell a run of folding: its first code point, how many code
points it has, the step between them, and what the first one folds to; the
others fold to code points at the same distance.  Three numbers tell a run of a
set, without the last of these.
-/

/-- The runs of simple case folding. -/
def foldingData : List String :=
  [
    "41 1a 1 61 b5 1 1 3bc c0 17 1 e0 d8 7 1 f8 100 18 2 101 132 3 2 133 139 8 2 13a 14a 17 2 14b",
    "178 1 1 ff 179 3 2 17a 17f 1 1 73 181 1 1 253 182 2 2 183 186 1 1 254 187 2 4 188 189 2 1",
    "256 18e 1 1 1dd 18f 1 1 259 190 1 1 25b 191 1 1 192 193 1 1 260 194 1 1 263 196 1 1 269 197",
    "1 1 268 198 1 1 199 19c 1 1 26f 19d 1 1 272 19f 1 1 275 1a0 3 2 1a1 1a6 1 1 280 1a7 1 1 1a8",
    "1a9 1 1 283 1ac 1 1 1ad 1ae 1 1 288 1af 2 4 1b0 1b1 2 1 28a 1b5 1 1 1b6 1b7 1 1 292 1b8 2 4",
    "1b9 1c4 1 1 1c6 1c5 1 1 1c6 1c7 1 1 1c9 1c8 1 1 1c9 1ca 1 1 1cc 1cb 9 2 1cc 1de 9 2 1df 1f1",
    "1 1 1f3 1f2 2 2 1f3 1f6 1 1 195 1f7 1 1 1bf 1f8 14 2 1f9 220 1 1 19e 222 9 2 223 23a 1 1",
    "2c65 23b 1 1 23c 23d 1 1 19a 23e 1 1 2c66 241 1 1 242 243 1 1 180 244 1 1 289 245 1 1 28c",
    "246 5 2 247 345 1 1 3b9 370 2 2 371 376 1 1 377 37f 1 1 3f3 386 1 1 3ac 388 3 1 3ad 38c 1 1",
    "3cc 38e 2 1 3cd 391 11 1 3b1 3a3 9 1 3c3 3c2 1 1 3c3 3cf 1 1 3d7 3d0 1 1 3b2 3d1 1 1 3b8 3d5",
    "1 1 3c6 3d6 1 1 3c0 3d8 c 2 3d9 3f0 1 1 3ba 3f1 1 1 3c1 3f4 1 1 3b8 3f5 1 1 3b5 3f7 1 1 3f8",
    "3f9 1 1 3f2 3fa 1 1 3fb 3fd 3 1 37b 400 10 1 450 410 20 1 430 460 11 2 461 48a 1b 2 48b 4c0",
    "1 1 4cf 4c1 7 2 4c2 4d0 30 2 4d1 531 26 1 561 10a0 26 1 2d00 10c7 1 1 2d27 10cd 1 1 2d2d",
    "13f8 6 1 13f0 1c80 1 1 432 1c81 1 1 434 1c82 1 1 43e 1c83 2 1 441 1c85 1 1 442 1c86 1 1 44a",
    "1c87 1 1 463 1c88 1 1 a64b 1c89 1 1 1c8a 1c90 2b 1 10d0 1cbd 3 1 10fd 1e00 4b 2 1e01 1e9b 1",
    "1 1e61 1e9e 1 1 df 1ea0 30 2 1ea1 1f08 8 1 1f00 1f18 6 1 1f10 1f28 8 1 1f20 1f38 8 1 1f30",
    "1f48 6 1 1f40 1f59 4 2 1f51 1f68 8 1 1f60 1f88 8 1 1f80 1f98 8 1 1f90 1fa8 8 1 1fa0 1fb8 2 1",
    "1fb0 1fba 2 1 1f70 1fbc 1 1 1fb3 1fbe 1 1 3b9 1fc8 4 1 1f72 1fcc 1 1 1fc3 1fd3 1 1 390 1fd8",
    "2 1 1fd0 1fda 2 1 1f76 1fe3 1 1 3b0 1fe8 2 1 1fe0 1fea 2 1 1f7a 1fec 1 1 1fe5 1ff8 2 1 1f78",
    "1ffa 2 1 1f7c 1ffc 1 1 1ff3 2126 1 1 3c9 212a 1 1 6b 212b 1 1 e5 2132 1 1 214e 2160 10 1",
    "2170 2183 1 1 2184 24b6 1a 1 24d0 2c00 30 1 2c30 2c60 1 1 2c61 2c62 1 1 26b 2c63 1 1 1d7d",
    "2c64 1 1 27d 2c67 3 2 2c68 2c6d 1 1 251 2c6e 1 1 271 2c6f 1 1 250 2c70 1 1 252 2c72 1 1 2c73",
    "2c75 1 1 2c76 2c7e 2 1 23f 2c80 32 2 2c81 2ceb 2 2 2cec 2cf2 1 1 2cf3 a640 17 2 a641 a680 e",
    "2 a681 a722 14 4 a723 a724 3 4 a725 a734 f 4 a735 a779 2 2 a77a a77d 1 1 1d79 a77e 5 2 a77f",
    "a78b 1 1 a78c a78d 1 1 265 a790 2 2 a791 a796 a 2 a797 a7aa 2 4 266 a7ab 1 1 25c a7ac 1 1",
    "261 a7ad 1 1 26c a7b0 1 1 29e a7b1 1 1 287 a7b2 1 1 29d a7b3 1 1 ab53 a7b4 8 2 a7b5 a7c4 1 1",
    "a794 a7c5 1 1 282 a7c6 1 1 1d8e a7c7 2 2 a7c8 a7cb 1 1 264 a7cc 2 4 a7cd a7d6 3 2 a7d7 a7dc",
    "1 1 19b a7f5 1 1 a7f6 ab70 50 1 13a0 fb05 1 1 fb06 ff21 1a 1 ff41 10400 28 1 10428 104b0 24",
    "1 104d8 10570 13 2 10597 10571 a 4 10598 10573 2 4 1059a 1057f 3 4 105a6 1058f 1 1 105b6",
    "10c80 33 1 10cc0 10d50 16 1 10d70 118a0 20 1 118c0 16e40 20 1 16e60 1e900 22 1 1e922"
  ]

/-- The runs of the property `Changes_When_Casefolded`. -/
def changesWhenCasefoldedData : List String :=
  [
    "41 1a 1 b5 1 1 c0 17 1 d8 8 1 100 1c 2 139 9 2 14a 18 2 179 5 2 182 3 2 187 3 2 18a 1 1 18e",
    "4 1 193 2 1 196 3 1 19c 2 1 19f 2 1 1a2 3 2 1a7 2 2 1ac 2 2 1af 5 2 1b2 1 1 1b8 1 1 1bc 1 1",
    "1c4 2 1 1c7 2 1 1ca 2 1 1cd 8 2 1de 9 2 1f1 2 1 1f4 20 2 1f7 1 1 23a 2 1 23d 2 1 241 3 2 244",
    "6 2 345 1 1 370 2 2 376 1 1 37f 1 1 386 5 2 389 1 1 38f f 2 392 8 2 3a4 4 2 3c2 1 1 3cf 3 1",
    "3d5 2 1 3d8 d 2 3f1 1 1 3f4 2 1 3f7 2 2 3fa 1 1 3fd 33 1 460 11 2 48a 1c 2 4c1 7 2 4d0 30 2",
    "531 26 1 587 1 1 10a0 26 1 10c7 1 1 10cd 1 1 13f8 6 1 1c80 a 1 1c90 2b 1 1cbd 3 1 1e00 4b 2",
    "1e9a 2 1 1e9e 31 2 1f08 8 1 1f18 6 1 1f28 8 1 1f38 8 1 1f48 6 1 1f59 4 2 1f68 8 1 1f80 30 1",
    "1fb2 3 1 1fb7 6 1 1fc2 3 1 1fc7 6 1 1fd8 4 1 1fe8 5 1 1ff2 3 1 1ff7 6 1 2126 1 1 212a 2 1",
    "2132 1 1 2160 10 1 2183 1 1 24b6 1a 1 2c00 30 1 2c60 3 2 2c63 1 1 2c67 5 2 2c6e 3 2 2c75 1 1",
    "2c7e 33 2 2c7f 1 1 2ceb 2 2 2cf2 1 1 a640 17 2 a680 e 2 a722 7 2 a732 1f 2 a779 3 2 a77e 5 2",
    "a78b 2 2 a790 2 2 a796 19 2 a7ab 2 2 a7b1 2 2 a7c5 4 2 a7cc 1 1 a7d0 1 1 a7d6 4 2 a7f5 1 1",
    "ab70 50 1 fb00 7 1 fb13 5 1 ff21 1a 1 10400 28 1 104b0 24 1 10570 13 2 10571 5 2 1057d 7 2",
    "1058d 3 2 10595 1 1 10c80 33 1 10d50 16 1 118a0 20 1 16e40 20 1 1e900 22 1"
  ]

/-- The runs of the property `Changes_When_Lowercased`. -/
def changesWhenLowercasedData : List String :=
  [
    "41 1a 1 c0 17 1 d8 7 1 100 1c 2 139 8 2 14a 18 2 179 3 2 181 2 1 184 2 2 187 3 2 18a 1 1 18e",
    "4 1 193 2 1 196 3 1 19c 2 1 19f 2 1 1a2 3 2 1a7 2 2 1ac 2 2 1af 5 2 1b2 1 1 1b8 1 1 1bc 1 1",
    "1c4 2 1 1c7 2 1 1ca 2 1 1cd 8 2 1de 9 2 1f1 2 1 1f4 20 2 1f7 1 1 23a 2 1 23d 2 1 241 3 2 244",
    "6 2 370 2 2 376 1 1 37f 1 1 386 5 2 389 1 1 38f f 2 392 8 2 3a4 4 2 3cf 1 1 3d8 c 2 3f4 1 1",
    "3f7 2 2 3fa 1 1 3fd 33 1 460 11 2 48a 1c 2 4c1 7 2 4d0 30 2 531 26 1 10a0 26 1 10c7 1 1 10cd",
    "1 1 13a0 56 1 1c89 1 1 1c90 2b 1 1cbd 3 1 1e00 4b 2 1e9e 31 2 1f08 8 1 1f18 6 1 1f28 8 1",
    "1f38 8 1 1f48 6 1 1f59 4 2 1f68 8 1 1f88 8 1 1f98 8 1 1fa8 8 1 1fb8 5 1 1fc8 5 1 1fd8 4 1",
    "1fe8 5 1 1ff8 5 1 2126 1 1 212a 2 1 2132 1 1 2160 10 1 2183 1 1 24b6 1a 1 2c00 30 1 2c60 3 2",
    "2c63 1 1 2c67 5 2 2c6e 3 2 2c75 1 1 2c7e 33 2 2c7f 1 1 2ceb 2 2 2cf2 1 1 a640 17 2 a680 e 2",
    "a722 7 2 a732 1f 2 a779 3 2 a77e 5 2 a78b 2 2 a790 2 2 a796 19 2 a7ab 2 2 a7b1 2 2 a7c5 4 2",
    "a7cc 1 1 a7d0 1 1 a7d6 4 2 a7f5 1 1 ff21 1a 1 10400 28 1 104b0 24 1 10570 13 2 10571 5 2",
    "1057d 7 2 1058d 3 2 10595 1 1 10c80 33 1 10d50 16 1 118a0 20 1 16e40 20 1 1e900 22 1"
  ]

/-- The runs of the property `Changes_When_Titlecased`. -/
def changesWhenTitlecasedData : List String :=
  [
    "61 1a 1 b5 1 1 df 18 1 f8 8 1 101 1c 2 13a 8 2 149 18 2 17a 4 2 17f 1 1 183 2 2 188 1 1 18c",
    "1 1 192 1 1 195 1 1 199 3 1 19e 1 1 1a1 3 2 1a8 1 1 1ad 1 1 1b0 1 1 1b4 2 2 1b9 1 1 1bd 2 2",
    "1c4 2 2 1c7 2 2 1ca a 2 1dd d 2 1f0 1 1 1f9 14 2 223 9 2 23c 1 1 23f 2 1 242 1 1 247 7 2 250",
    "4 2 257 3 2 25c 1 1 260 2 1 263 4 1 268 5 1 26f 2 2 272 1 1 275 1 1 27d 1 1 280 2 2 283 1 1",
    "287 6 1 292 1 1 29d 2 1 345 1 1 371 2 2 377 1 1 37b 3 1 390 1 1 3ac 23 1 3d0 2 1 3d5 11 2",
    "3d6 1 1 3f0 2 2 3f8 1 1 3fb 1 1 430 30 1 461 11 2 48b 1b 2 4c2 7 2 4cf 31 2 561 27 1 13f8 6",
    "1 1c80 9 1 1c8a 1 1 1d79 1 1 1d7d 1 1 1d8e 1 1 1e01 4e 2 1e96 3 2 1ea1 34 2 1f00 4 2 1f10 6",
    "1 1f20 8 1 1f30 8 1 1f40 6 1 1f50 8 1 1f60 8 1 1f70 e 1 1f80 8 1 1f90 8 1 1fa0 8 1 1fb0 5 1",
    "1fb6 2 1 1fbe 1 1 1fc2 3 1 1fc6 2 1 1fd0 4 1 1fd6 2 1 1fe0 8 1 1ff2 3 1 1ff6 2 1 214e 1 1",
    "2170 10 1 2184 1 1 24d0 1a 1 2c30 30 1 2c61 1 1 2c65 2 1 2c68 3 2 2c73 1 1 2c76 1 1 2c81 32",
    "2 2cec 2 2 2cf3 1 1 2d00 26 1 2d27 1 1 2d2d 1 1 a641 17 2 a681 e 2 a723 7 2 a733 1f 2 a77a 2",
    "2 a77f 5 2 a78c 1 1 a791 2 2 a794 1 1 a797 a 2 a7b5 8 2 a7c8 2 2 a7cd 1 1 a7d1 1 1 a7d7 3 2",
    "a7f6 1 1 ab53 1 1 ab70 50 1 fb00 7 1 fb13 5 1 ff41 1a 1 10428 28 1 104d8 24 1 10597 13 2",
    "10598 5 2 105a4 7 2 105b4 3 2 105bc 1 1 10cc0 33 1 10d70 16 1 118c0 20 1 16e60 20 1 1e922 22",
    "1"
  ]

/-- The runs of the property `Changes_When_Uppercased`. -/
def changesWhenUppercasedData : List String :=
  [
    "61 1a 1 b5 1 1 df 18 1 f8 8 1 101 1c 2 13a 8 2 149 18 2 17a 4 2 17f 1 1 183 2 2 188 1 1 18c",
    "1 1 192 1 1 195 1 1 199 3 1 19e 1 1 1a1 3 2 1a8 1 1 1ad 1 1 1b0 1 1 1b4 2 2 1b9 1 1 1bd 2 2",
    "1c5 2 1 1c8 2 1 1cb 2 1 1ce 8 2 1dd a 2 1f0 2 2 1f3 2 2 1f9 14 2 223 9 2 23c 1 1 23f 2 1 242",
    "1 1 247 7 2 250 4 2 257 3 2 25c 1 1 260 2 1 263 4 1 268 5 1 26f 2 2 272 1 1 275 1 1 27d 1 1",
    "280 2 2 283 1 1 287 6 1 292 1 1 29d 2 1 345 1 1 371 2 2 377 1 1 37b 3 1 390 1 1 3ac 23 1 3d0",
    "2 1 3d5 11 2 3d6 1 1 3f0 2 2 3f8 1 1 3fb 1 1 430 30 1 461 11 2 48b 1b 2 4c2 7 2 4cf 31 2 561",
    "27 1 10d0 2b 1 10fd 3 1 13f8 6 1 1c80 9 1 1c8a 1 1 1d79 1 1 1d7d 1 1 1d8e 1 1 1e01 4e 2 1e96",
    "3 2 1ea1 34 2 1f00 4 2 1f10 6 1 1f20 8 1 1f30 8 1 1f40 6 1 1f50 8 1 1f60 8 1 1f70 e 1 1f80",
    "35 1 1fb6 2 1 1fbc 2 2 1fc2 3 1 1fc6 2 1 1fcc 1 1 1fd0 4 1 1fd6 2 1 1fe0 8 1 1ff2 3 1 1ff6 2",
    "1 1ffc 1 1 214e 1 1 2170 10 1 2184 1 1 24d0 1a 1 2c30 30 1 2c61 1 1 2c65 2 1 2c68 3 2 2c73 1",
    "1 2c76 1 1 2c81 32 2 2cec 2 2 2cf3 1 1 2d00 26 1 2d27 1 1 2d2d 1 1 a641 17 2 a681 e 2 a723 7",
    "2 a733 1f 2 a77a 2 2 a77f 5 2 a78c 1 1 a791 2 2 a794 1 1 a797 a 2 a7b5 8 2 a7c8 2 2 a7cd 1 1",
    "a7d1 1 1 a7d7 3 2 a7f6 1 1 ab53 1 1 ab70 50 1 fb00 7 1 fb13 5 1 ff41 1a 1 10428 28 1 104d8",
    "24 1 10597 13 2 10598 5 2 105a4 7 2 105b4 3 2 105bc 1 1 10cc0 33 1 10d70 16 1 118c0 20 1",
    "16e60 20 1 1e922 22 1"
  ]


/-! ## Folding -/

/-- The pairs of a run: each code point with what it folds to. -/
def foldRun (first count step target : Nat) : List (Nat × Nat) :=
  (List.range count).map fun i => (first + i * step, target + i * step)

/-- The pairs told by a table of runs. -/
def foldPairs : List Nat → List (Nat × Nat)
  | first :: count :: step :: target :: rest => foldRun first count step target ++ foldPairs rest
  | _ => []

/-- Groups pairs that are next to each other and fold to the same code point. -/
def groupSorted : List (Nat × Nat) → List (List Nat)
  | [] => []
  | p :: rest =>
    match groupSorted rest with
    | (t :: members) :: groups =>
      if t = p.2 then (t :: p.1 :: members) :: groups else [p.2, p.1] :: (t :: members) :: groups
    | groups => [p.2, p.1] :: groups

/-- The groups of characters that differ in case only. -/
def caseGroups : List (List Nat) :=
  groupSorted ((foldPairs (dataNumbers foldingData)).mergeSort fun p q => p.2 ≤ q.2)

/-- A set with every character that differs from an element in case only. -/
def CharSet.closeCase (s : CharSet) : CharSet :=
  let more := caseGroups.filter fun g => g.any s.contains
  if more.isEmpty then s
  else CharSet.ofRanges (s.ranges.toList ++ more.flatMap fun g => g.map fun c => (c, c))

/-- A set of bytes with every ASCII letter that differs from an element in case only. -/
def CharSet.closeAsciiCase (s : CharSet) : CharSet :=
  let letters := (List.range 26).filter fun i => s.contains (65 + i) || s.contains (97 + i)
  CharSet.ofRanges
    (s.ranges.toList ++ letters.flatMap fun i => [(65 + i, 65 + i), (97 + i, 97 + i)])

end Glr.Unicode
