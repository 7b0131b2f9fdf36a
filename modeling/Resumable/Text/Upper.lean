/-!
# Upper case

The upper-case form of a text, by the full case mapping of Unicode: most letters have one capital
letter, and some, such as the sharp s, become two or three letters.
-/

namespace Resumable.Text

/-- A run of letters whose capital letters lie at a fixed distance. -/
structure CaseRun where
  first : Nat
  last : Nat
  step : Nat
  shift : Int
deriving Repr, DecidableEq

def caseRuns : List CaseRun :=
  [⟨97, 122, 1, -32⟩, ⟨224, 246, 1, -32⟩, ⟨248, 254, 1, -32⟩, ⟨257, 303, 2, -1⟩, ⟨307, 311, 2, -1⟩,
    ⟨314, 328, 2, -1⟩, ⟨331, 375, 2, -1⟩, ⟨378, 382, 2, -1⟩, ⟨387, 389, 2, -1⟩, ⟨417, 421, 2, -1⟩,
    ⟨436, 438, 2, -1⟩, ⟨462, 476, 2, -1⟩, ⟨479, 495, 2, -1⟩, ⟨505, 543, 2, -1⟩, ⟨547, 563, 2, -1⟩,
    ⟨575, 576, 1, 10815⟩, ⟨583, 591, 2, -1⟩, ⟨598, 599, 1, -205⟩, ⟨650, 651, 1, -217⟩,
    ⟨881, 883, 2, -1⟩, ⟨891, 893, 1, 130⟩, ⟨941, 943, 1, -37⟩, ⟨945, 961, 1, -32⟩,
    ⟨963, 971, 1, -32⟩, ⟨973, 974, 1, -63⟩, ⟨985, 1007, 2, -1⟩, ⟨1072, 1103, 1, -32⟩,
    ⟨1104, 1119, 1, -80⟩, ⟨1121, 1153, 2, -1⟩, ⟨1163, 1215, 2, -1⟩, ⟨1218, 1230, 2, -1⟩,
    ⟨1233, 1327, 2, -1⟩, ⟨1377, 1414, 1, -48⟩, ⟨4304, 4346, 1, 3008⟩, ⟨4349, 4351, 1, 3008⟩,
    ⟨5112, 5117, 1, -8⟩, ⟨7299, 7300, 1, -6242⟩, ⟨7681, 7829, 2, -1⟩, ⟨7841, 7935, 2, -1⟩,
    ⟨7936, 7943, 1, 8⟩, ⟨7952, 7957, 1, 8⟩, ⟨7968, 7975, 1, 8⟩, ⟨7984, 7991, 1, 8⟩,
    ⟨8000, 8005, 1, 8⟩, ⟨8017, 8023, 2, 8⟩, ⟨8032, 8039, 1, 8⟩, ⟨8048, 8049, 1, 74⟩,
    ⟨8050, 8053, 1, 86⟩, ⟨8054, 8055, 1, 100⟩, ⟨8056, 8057, 1, 128⟩, ⟨8058, 8059, 1, 112⟩,
    ⟨8060, 8061, 1, 126⟩, ⟨8112, 8113, 1, 8⟩, ⟨8144, 8145, 1, 8⟩, ⟨8160, 8161, 1, 8⟩,
    ⟨8560, 8575, 1, -16⟩, ⟨9424, 9449, 1, -26⟩, ⟨11312, 11359, 1, -48⟩, ⟨11368, 11372, 2, -1⟩,
    ⟨11393, 11491, 2, -1⟩, ⟨11500, 11502, 2, -1⟩, ⟨11520, 11557, 1, -7264⟩, ⟨42561, 42605, 2, -1⟩,
    ⟨42625, 42651, 2, -1⟩, ⟨42787, 42799, 2, -1⟩, ⟨42803, 42863, 2, -1⟩, ⟨42874, 42876, 2, -1⟩,
    ⟨42879, 42887, 2, -1⟩, ⟨42897, 42899, 2, -1⟩, ⟨42903, 42921, 2, -1⟩, ⟨42933, 42947, 2, -1⟩,
    ⟨42952, 42954, 2, -1⟩, ⟨42967, 42969, 2, -1⟩, ⟨43888, 43967, 1, -38864⟩, ⟨65345, 65370, 1, -32⟩,
    ⟨66600, 66639, 1, -40⟩, ⟨66776, 66811, 1, -40⟩, ⟨66967, 66977, 1, -39⟩, ⟨66979, 66993, 1, -39⟩,
    ⟨66995, 67001, 1, -39⟩, ⟨67003, 67004, 1, -39⟩, ⟨68800, 68850, 1, -64⟩, ⟨71872, 71903, 1, -32⟩,
    ⟨93792, 93823, 1, -32⟩, ⟨125218, 125251, 1, -34⟩]

/-- Other letters with one capital letter, and the distance to it. -/
def caseShifts : List (Nat × Int) :=
  [(181, 743), (255, 121), (305, -232), (383, -300), (384, 195), (392, -1), (396, -1), (402, -1),
    (405, 97), (409, -1), (410, 163), (414, 130), (424, -1), (429, -1), (432, -1), (441, -1),
    (445, -1), (447, 56), (453, -1), (454, -2), (456, -1), (457, -2), (459, -1), (460, -2),
    (477, -79), (498, -1), (499, -2), (501, -1), (572, -1), (578, -1), (592, 10783), (593, 10780),
    (594, 10782), (595, -210), (596, -206), (601, -202), (603, -203), (604, 42319), (608, -205),
    (609, 42315), (611, -207), (613, 42280), (614, 42308), (616, -209), (617, -211), (618, 42308),
    (619, 10743), (620, 42305), (623, -211), (625, 10749), (626, -213), (629, -214), (637, 10727),
    (640, -218), (642, 42307), (643, -218), (647, 42282), (648, -218), (649, -69), (652, -71),
    (658, -219), (669, 42261), (670, 42258), (837, 84), (887, -1), (940, -38), (962, -31),
    (972, -64), (976, -62), (977, -57), (981, -47), (982, -54), (983, -8), (1008, -86), (1009, -80),
    (1010, 7), (1011, -116), (1013, -96), (1016, -1), (1019, -1), (1231, -15), (7296, -6254),
    (7297, -6253), (7298, -6244), (7301, -6243), (7302, -6236), (7303, -6181), (7304, 35266),
    (7545, 35332), (7549, 3814), (7566, 35384), (7835, -59), (8126, -7205), (8165, 7), (8526, -28),
    (8580, -1), (11361, -1), (11365, -10795), (11366, -10792), (11379, -1), (11382, -1),
    (11507, -1), (11559, -7264), (11565, -7264), (42892, -1), (42900, 48), (42961, -1), (42998, -1),
    (43859, -928)]

def caseExpansions : List (Nat × List Nat) :=
  [(223, [83, 83]), (329, [700, 78]), (496, [74, 780]), (912, [921, 776, 769]),
    (944, [933, 776, 769]), (1415, [1333, 1362]), (7830, [72, 817]), (7831, [84, 776]),
    (7832, [87, 778]), (7833, [89, 778]), (7834, [65, 702]), (8016, [933, 787]),
    (8018, [933, 787, 768]), (8020, [933, 787, 769]), (8022, [933, 787, 834]), (8114, [8122, 921]),
    (8115, [913, 921]), (8116, [902, 921]), (8118, [913, 834]), (8119, [913, 834, 921]),
    (8124, [913, 921]), (8130, [8138, 921]), (8131, [919, 921]), (8132, [905, 921]),
    (8134, [919, 834]), (8135, [919, 834, 921]), (8140, [919, 921]), (8146, [921, 776, 768]),
    (8147, [921, 776, 769]), (8150, [921, 834]), (8151, [921, 776, 834]), (8162, [933, 776, 768]),
    (8163, [933, 776, 769]), (8164, [929, 787]), (8166, [933, 834]), (8167, [933, 776, 834]),
    (8178, [8186, 921]), (8179, [937, 921]), (8180, [911, 921]), (8182, [937, 834]),
    (8183, [937, 834, 921]), (8188, [937, 921]), (64256, [70, 70]), (64257, [70, 73]),
    (64258, [70, 76]), (64259, [70, 70, 73]), (64260, [70, 70, 76]), (64261, [83, 84]),
    (64262, [83, 84]), (64275, [1348, 1350]), (64276, [1348, 1333]), (64277, [1348, 1339]),
    (64278, [1358, 1350]), (64279, [1348, 1341])]

/-- Greek letters with an iota below become two letters. They stand in six rows of eight. -/
def iotaExpansion? (code : Nat) : Option (List Nat) :=
  if 8064 ≤ code && code ≤ 8111 then
    [7944, 7976, 8040][(code - 8064) / 16]?.map fun first => [first + code % 8, 921]
  else none

def CaseRun.covers (r : CaseRun) (code : Nat) : Bool :=
  r.first ≤ code && code ≤ r.last && (code - r.first) % r.step == 0

def upperOf (c : Char) : List Char :=
  match (iotaExpansion? c.toNat).or (caseExpansions.lookup c.toNat) with
  | some codes => codes.map Char.ofNat
  | none =>
    let shift := (caseShifts.lookup c.toNat).or ((caseRuns.find? (·.covers c.toNat)).map (·.shift))
    match shift with
    | some d => [Char.ofNat ((c.toNat : Int) + d).toNat]
    | none => [c]

def upper (s : String) : String := String.ofList (s.toList.flatMap upperOf)

end Resumable.Text
